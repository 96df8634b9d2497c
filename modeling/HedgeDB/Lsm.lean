/-
HedgeDB/Lsm.lean

LSM reads refine a plain map.

A read consults the current table, the pending tables and the SSTs of the key's
partition, one after the other, and takes the first hit.  `sources`
lists all of them as SSTs in that order, so a step of the database is judged by
what it does to this one list:

* a write puts its version in front;
* the table switch and the completion of a flush leave the hits alone;
* a commit replaces its inputs by their merge in place, and where it drops a
  tombstone nothing is left behind it.

Hence after every run whose merges succeed and that compacts nothing inside the
last level, `get_async` answers what was last written (`reads_refine_map`).
-/
import HedgeDB.Database
import HedgeDB.Tombstones

namespace HedgeDB

open PartitionState Database KeyedList List Function

variable {K : Type*} [LinearOrder K] {cfg : SstManagerConfig} {part : K → ℕ} {db db' : Database K}

/-! ### What a read consults -/

/-- A table seen as an SST of its entries, all versions kept. -/
def tableRun (epoch : ℕ) (t : Skiplist K) : Sst K :=
  { id := 0, indexId := epoch, epoch, upperBound := 0, maxSeqNr := 0
    entries := t.entries.map MemtableEntry.toRecord }

namespace Database

/-- The tables in memory, from old to new. -/
def unflushed (db : Database K) : List (Sst K) :=
  db.pendingFlushes.map (fun q => tableRun q.1 q.2) ++ [tableRun db.flushIteration db.table]

/-- Everything a read of partition `p` consults, in order. -/
def sources (cfg : SstManagerConfig) (db : Database K) (p : ℕ) : List (Sst K) :=
  db.unflushed.reverse ++ readOrder ((db.partitions p).levelList cfg)

def firstHit (cfg : SstManagerConfig) (part : K → ℕ) (db : Database K) (k : K) :
    Option (Record K) :=
  (db.sources cfg (part k)).findSome? fun X => X.find k

/-- `X` is a table or an SST of the database. -/
def Holds (db : Database K) (X : Sst K) : Prop :=
  X ∈ db.unflushed ∨ ∃ p i, X ∈ (db.partitions p).levels i

end Database

theorem find_tableRun (epoch : ℕ) (t : Skiplist K) (k : K) :
    (tableRun epoch t).find k = (t.get k).map MemtableEntry.toRecord := by
  rw [Skiplist.get_eq_lookup]
  exact lookup_map MemtableEntry.toRecord t.entries k

variable {Y : Sst K}

omit [LinearOrder K] in
theorem Older.mono {X Y' X' : Sst K} (h : Older Y X) (hY : Y'.epoch ≤ Y.epoch)
    (hYe : Y'.entries ⊆ Y.entries) (hX : X.epoch ≤ X'.epoch) (hXe : X'.entries ⊆ X.entries) :
    Older Y' X' :=
  ⟨hY.trans_lt (h.1.trans_le hX), fun r hr r' hr' => h.2 r (hYe hr) r' (hXe hr')⟩

/-- The invariant: every partition is in order, what is in memory is newer than
what is in the SSTs, and both are below the counters. -/
structure LsmInv (cfg : SstManagerConfig) (db : Database K) : Prop where
  partition : ∀ p, UpperInv cfg p (db.partitions p)
  discard : ∀ p, DiscardOk (db.partitions p)
  fileIds : ∀ p, (db.partitions p).nextFileId ≤ db.nextFileId
  ordered : db.unflushed.Pairwise Older
  newer : ∀ p i, ∀ Y ∈ (db.partitions p).levels i, ∀ B ∈ db.unflushed, Older Y B
  decodable : ∀ B ∈ db.unflushed, B.AllDecodable
  stamps : ∀ X, db.Holds X → ∀ r ∈ X.entries, r.stamp < db.seqNr

theorem lsmInv_initial : LsmInv cfg ({} : Database K) := by
  have hempty : ∀ B ∈ ({} : Database K).unflushed, B.entries = [] := by
    intro B hB
    obtain rfl := mem_singleton.mp hB
    rfl
  refine ⟨fun p => ⟨inv_initial, rfl, fun _ => .inl rfl⟩, fun p i t ht => (by cases ht),
    fun p => le_rfl, pairwise_singleton _ _, fun p i Y hY => (by cases hY), ?_, ?_⟩
  · intro B hB r hr
    rw [hempty B hB] at hr
    cases hr
  · rintro X (hX | ⟨p, i, hX⟩) r hr
    · rw [hempty X hX] at hr
      cases hr
    · cases hX

/-! ### Reading is taking the first hit -/

theorem memtableGetFrom_eq (toHexString : K → String) (k : K) {ts : List (ℕ × Skiplist K)}
    (hdec : ∀ q ∈ ts, (tableRun q.1 q.2).AllDecodable) :
    memtableGetFrom toHexString k (ts.map Prod.snd) =
      .ok (((ts.map fun q => tableRun q.1 q.2).findSome? fun X => X.find k).map Record.decode) := by
  induction ts with
  | nil => rfl
  | cons q ts ih =>
    have hfind := find_tableRun q.1 q.2 k
    rw [map_cons, map_cons, findSome?_cons, memtableGetFrom, hfind]
    rcases e : q.2.get k with - | a
    · exact ih fun q' hq' => hdec q' (mem_cons_of_mem _ hq')
    · rw [e] at hfind
      have hval : valueFromSpan a.value = .ok a.toRecord.decode :=
        Record.decode_eq (hdec q mem_cons_self _ (lookup_mem hfind).1)
      simp [hval]

theorem LsmInv.findValue_eq (h : LsmInv cfg db) (part : K → ℕ) {probe : Sst K → K → Bool}
    (hprobe : NoFalseNegatives probe) (toHexString : K → String) (k : K) :
    db.findValue cfg part probe toHexString k =
      match db.firstHit cfg part k with
      | none => .error { msg := "Key not found", code := .keyNotFound }
      | some r => .ok r.decode := by
  have htables : db.memtableGet toHexString k =
      .ok ((db.unflushed.reverse.findSome? fun X => X.find k).map Record.decode) := by
    have hmem : ∀ q ∈ (db.flushIteration, db.table) :: db.pendingFlushes.reverse,
        (tableRun q.1 q.2).AllDecodable := by
      intro q hq
      refine h.decodable _ ?_
      rcases mem_cons.mp hq with rfl | hq'
      · exact mem_append_right _ (mem_singleton_self _)
      · exact mem_append_left _ (mem_map_of_mem (mem_reverse.mp hq'))
    simpa [memtableGet, unflushed, map_reverse] using
      memtableGetFrom_eq toHexString k hmem
  have hdec : ∀ X ∈ readOrder ((db.partitions (part k)).levelList cfg), X.AllDecodable :=
    fun X hX => ((h.partition (part k)).inv.levels.readOrder_sst hX).2.2
  rw [findValue, htables, firstHit, sources, findSome?_append,
    lookupAsync_eq hprobe k hdec]
  rcases e : db.unflushed.reverse.findSome? fun X => X.find k with - | r
  · rw [e]
    rfl
  · rw [e]
    rfl

/-! ### What is stored for a cell of the map -/

/-- The first hit under a key whose cell is given. -/
def Cell.Stored : Cell → Option (Record K) → Prop
  | .unwritten, hit => hit = none
  | .value data, hit => hit.map Record.value = some (encodeValue .inPlaceValue data)
  | .removed, hit => ∀ r, hit = some r → r.value = encodeValue .tombstone []

variable {c : Cell}

theorem LsmInv.answer (h : LsmInv cfg db) {probe : Sst K → K → Bool}
    (hprobe : NoFalseNegatives probe) (toHexString : K → String) {k : K}
    (hc : c.Stored (db.firstHit cfg part k)) :
    c.Answer (db.getAsync cfg part probe toHexString k) := by
  have hfind := h.findValue_eq part hprobe toHexString k
  revert hc hfind
  generalize db.firstHit cfg part k = hit
  intro hc hfind
  cases c with
  | unwritten =>
    obtain rfl : hit = none := hc
    simp [Cell.Answer, getAsync, hfind]
  | value data =>
    obtain ⟨r, rfl, hr⟩ := Option.map_eq_some_iff.mp hc
    simp [Cell.Answer, getAsync, hfind, Record.decode, hr]
  | removed =>
    rcases hit with - | r
    · exact .inr (by simp [getAsync, hfind])
    · have hr := hc r rfl
      exact .inl (by simp [getAsync, hfind, Record.decode, hr])

/-! ### Writes and the table switch -/

theorem LsmInv.insert (h : LsmInv cfg db) {key : K} {value : Bytes} (hv : Decodable value) :
    LsmInv cfg (db.insert key value) := by
  -- of the lists above only the last table changes, and only by the new version
  have hentries : ∀ r ∈ (tableRun db.flushIteration (db.insert key value).table).entries,
      r = ⟨key, db.seqNr, value⟩ ∨ r ∈ (tableRun db.flushIteration db.table).entries := by
    intro r hr
    obtain ⟨e, he, rfl⟩ := mem_map.mp hr
    rcases Skiplist.mem_insert he with rfl | he'
    · exact .inl rfl
    · exact .inr (mem_map_of_mem he')
  have htable : tableRun db.flushIteration db.table ∈ db.unflushed :=
    mem_append_right _ (mem_singleton_self _)
  have hholds : ∀ X, db.Holds X → Older X (tableRun db.flushIteration db.table) →
      Older X (tableRun db.flushIteration (db.insert key value).table) := by
    refine fun X hX hold => ⟨hold.1, fun r hr r' hr' => ?_⟩
    rcases hentries r' hr' with rfl | hr''
    · exact h.stamps X hX r hr
    · exact hold.2 r hr r' hr''
  obtain ⟨hpw, -, hlast⟩ := pairwise_append.mp h.ordered
  refine ⟨h.partition, h.discard, h.fileIds, ?_, ?_, ?_, ?_⟩
  · refine pairwise_append.mpr ⟨hpw, pairwise_singleton _ _, fun B hB C hC => ?_⟩
    obtain rfl := mem_singleton.mp hC
    exact hholds B (.inl (mem_append_left _ hB)) (hlast B hB _ (mem_singleton_self _))
  · intro p i Y hY B hB
    rcases mem_append.mp hB with hB' | hB'
    · exact h.newer p i Y hY B (mem_append_left _ hB')
    · obtain rfl := mem_singleton.mp hB'
      exact hholds Y (.inr ⟨p, i, hY⟩) (h.newer p i Y hY _ htable)
  · intro B hB r hr
    rcases mem_append.mp hB with hB' | hB'
    · exact h.decodable B (mem_append_left _ hB') r hr
    · obtain rfl := mem_singleton.mp hB'
      rcases hentries r hr with rfl | hr'
      · exact hv
      · exact h.decodable _ htable r hr'
  · rintro X (hX | hX) r hr
    · rcases mem_append.mp hX with hX' | hX'
      · exact (h.stamps X (.inl (mem_append_left _ hX')) r hr).trans (Nat.lt_succ_self _)
      · obtain rfl := mem_singleton.mp hX'
        rcases hentries r hr with rfl | hr'
        · exact Nat.lt_succ_self _
        · exact (h.stamps _ (.inl htable) r hr').trans (Nat.lt_succ_self _)
    · exact (h.stamps X (.inr hX) r hr).trans (Nat.lt_succ_self _)

theorem Database.firstHit_eq (db : Database K) (k : K) :
    db.firstHit cfg part k = ((db.table.get k).map MemtableEntry.toRecord).or
      (((db.pendingFlushes.map fun q => tableRun q.1 q.2).reverse ++
        readOrder ((db.partitions (part k)).levelList cfg)).findSome? fun X => X.find k) := by
  rw [firstHit, sources, unflushed, reverse_append,
    append_assoc, findSome?_append, ← find_tableRun db.flushIteration]
  rw [reverse_singleton, findSome?_singleton]

theorem LsmInv.firstHit_insert (h : LsmInv cfg db) (key : K) (value : Bytes) (k : K) :
    (db.insert key value).firstHit cfg part k =
      if k = key then some ⟨key, db.seqNr, value⟩ else db.firstHit cfg part k := by
  rw [firstHit_eq, firstHit_eq db]
  change (((db.table.insert ⟨key, db.seqNr, value⟩).get k).map _).or _ = _
  by_cases hk : k = key
  · subst hk
    have hnew : ∀ a ∈ db.table.entries, a.key = k → a.seq < db.seqNr := by
      intro a ha _
      exact h.stamps (tableRun db.flushIteration db.table)
        (.inl (mem_append_right _ (mem_singleton_self _))) _ (mem_map_of_mem ha)
    rw [if_pos rfl, db.table.get_insert_self (e := ⟨k, db.seqNr, value⟩) hnew]
    rfl
  · rw [if_neg hk, db.table.get_insert_ne (e := ⟨key, db.seqNr, value⟩) (Ne.symm hk)]
    rfl

theorem LsmInv.switch (h : LsmInv cfg db) {epoch : ℕ} (he : db.flushIteration ≤ epoch) :
    LsmInv cfg (db.switch epoch) := by
  have hmem : ∀ B ∈ (db.switch epoch).unflushed,
      B ∈ db.pendingFlushes.map (fun q => tableRun q.1 q.2) ∨ B = tableRun epoch db.table ∨
        B = tableRun (epoch + 1) .empty := by
    intro B hB
    simpa [unflushed, Database.switch, or_assoc] using hB
  have htable : tableRun db.flushIteration db.table ∈ db.unflushed :=
    mem_append_right _ (mem_singleton_self _)
  -- the two new entries of the list are above whatever was below the table
  have hold : ∀ X, Older X (tableRun db.flushIteration db.table) →
      Older X (tableRun epoch db.table) ∧ Older X (tableRun (epoch + 1) .empty) :=
    fun X hX => ⟨hX.mono le_rfl (Subset.refl _) he (Subset.refl _),
      hX.mono le_rfl (Subset.refl _) (he.trans (Nat.le_succ _)) (nil_subset _)⟩
  obtain ⟨hpw, -, hlast⟩ := pairwise_append.mp h.ordered
  refine ⟨h.partition, h.discard, h.fileIds, ?_, ?_, ?_, ?_⟩
  · have hsplit : (db.switch epoch).unflushed =
        db.pendingFlushes.map (fun q => tableRun q.1 q.2) ++
          [tableRun epoch db.table, tableRun (epoch + 1) .empty] := by
      simp [unflushed, Database.switch]
    rw [hsplit]
    refine pairwise_append.mpr ⟨hpw, ?_, fun B hB C hC => ?_⟩
    · refine pairwise_pair.mpr ⟨Nat.lt_succ_self _, fun r _ r' hr' => ?_⟩
      cases hr'
    · have hB' := hold B (hlast B hB _ (mem_singleton_self _))
      rcases mem_pair.mp hC with rfl | rfl
      · exact hB'.1
      · exact hB'.2
  · intro p i Y hY B hB
    have hY' := hold Y (h.newer p i Y hY _ htable)
    rcases hmem B hB with hB' | rfl | rfl
    · exact h.newer p i Y hY B (mem_append_left _ hB')
    · exact hY'.1
    · exact hY'.2
  · intro B hB r hr
    rcases hmem B hB with hB' | rfl | rfl
    · exact h.decodable B (mem_append_left _ hB') r hr
    · exact h.decodable _ htable r hr
    · cases hr
  · rintro X (hX | hX) r hr
    · rcases hmem X hX with hX' | rfl | rfl
      · exact h.stamps X (.inl (mem_append_left _ hX')) r hr
      · exact h.stamps _ (.inl htable) r hr
      · cases hr
    · exact h.stamps X (.inr hX) r hr

theorem Database.firstHit_switch (epoch : ℕ) (k : K) :
    (db.switch epoch).firstHit cfg part k = db.firstHit cfg part k := by
  have hpend : ((db.switch epoch).pendingFlushes.map fun q => tableRun q.1 q.2).reverse =
      [tableRun epoch db.table] ++ (db.pendingFlushes.map fun q => tableRun q.1 q.2).reverse := by
    simp [Database.switch]
  rw [firstHit_eq, firstHit_eq db, hpend, append_assoc,
    findSome?_append, findSome?_singleton, find_tableRun]
  rfl

/-! ### The completion of a flush -/

section Flush

variable {epoch : ℕ} {table : Skiplist K} {rest : List (ℕ × Skiplist K)} {ssts : List (Sst K)}

omit [LinearOrder K] in
theorem Database.pushSsts_apply (partitions : ℕ → PartitionState K) (ssts : List (Sst K)) (p : ℕ) :
    pushSsts partitions ssts p =
      (ssts.filter fun X => X.upperBound = p).foldl pushNewSstsToL0 (partitions p) := by
  induction ssts generalizing partitions with
  | nil => rfl
  | cons X ssts ih =>
    rw [pushSsts, foldl_cons]
    refine (ih _).trans ?_
    by_cases hX : X.upperBound = p
    · subst hX
      rw [filter_cons_of_pos (by simp), foldl_cons, update_self]
    · rw [filter_cons_of_neg (by simpa using hX), update_of_ne (Ne.symm hX)]

/-- What the flush of a table writes for partition `p`. -/
def flushedSst (part : K → ℕ) (fileId epoch : ℕ) (table : Skiplist K) (p : ℕ) : Sst K :=
  exportAsSst fileId epoch (p, table.entries.filter fun e => part e.key = p)

theorem flushedSst_entries (fileId p : ℕ) :
    (flushedSst part fileId epoch table p).entries ⊆ (tableRun epoch table).entries := by
  intro r hr
  obtain ⟨e, he, rfl⟩ := mem_exportAsSst hr
  exact mem_map_of_mem (mem_filter.mp he).1

theorem sorted_range (table : Skiplist K) (p : ℕ) :
    (table.entries.filter fun e => part e.key = p).Pairwise fun a b => a.key ≤ b.key :=
  (sorted_keys table.sorted).sublist filter_sublist

theorem find_flushedSst (part : K → ℕ) (fileId : ℕ) (k : K) :
    (flushedSst part fileId epoch table (part k)).find k = (tableRun epoch table).find k := by
  rw [flushedSst, find_exportAsSst fileId epoch (sorted_range table _), find_tableRun,
    Skiplist.get_eq_lookup]
  exact congrArg _ (lookup_filter table.entries (fun k' => decide (part k' = part k)) k (by simp))

/-- A flush leaves partition `p` alone, if the table has no key of it, or pushes
one SST. -/
theorem Database.flushed_partition (rest : List (ℕ × Skiplist K))
    (hok : flushMemtable part db.nextFileId epoch table.entries = .ok ssts) (p : ℕ) :
    (db.flushed rest ssts).partitions p = db.partitions p ∧
        (∀ k, part k = p → (tableRun epoch table).find k = none) ∨
      ∃ i < ssts.length, flushedSst part (db.nextFileId + i) epoch table p ∈ ssts ∧
        (db.flushed rest ssts).partitions p = (db.partitions p).pushNewSstsToL0
          (flushedSst part (db.nextFileId + i) epoch table p) := by
  change pushSsts db.partitions ssts p = _ ∧ _ ∨
    ∃ i < _, _ ∧ pushSsts _ _ _ = _
  rw [pushSsts_apply]
  rcases flushMemtable_partition hok p with ⟨hnil, hnone⟩ | ⟨i, hi, hone⟩
  · refine .inl ⟨by rw [hnil]; rfl, ?_⟩
    rintro k rfl
    rw [← find_flushedSst part 0, flushedSst, hnone]
    rfl
  · refine .inr ⟨i, hi, ?_, by rw [hone]; rfl⟩
    exact mem_of_mem_filter (hone ▸ mem_singleton_self _)

theorem LsmInv.flushed_guard (h : LsmInv cfg db) (hpend : db.pendingFlushes = (epoch, table) :: rest)
    (i p : ℕ) :
    Flushed cfg p (db.partitions p) (flushedSst part (db.nextFileId + i) epoch table p) := by
  have hmem : tableRun epoch table ∈ db.unflushed := by simp [unflushed, hpend]
  refine ⟨(h.fileIds p).trans (Nat.le_add_right _ _), rfl, ?_, ?_, ?_⟩
  · exact exportAsSst_sorted _ _ (sorted_range table p)
  · exact fun r hr => h.decodable _ hmem r (flushedSst_entries _ p hr)
  · exact fun j _ Y hY => (h.newer p j Y hY _ hmem).mono le_rfl (Subset.refl _) le_rfl
      (flushedSst_entries _ p)

theorem Database.mem_flushed
    (hok : flushMemtable part db.nextFileId epoch table.entries = .ok ssts) {p j : ℕ}
    (hY : Y ∈ ((db.flushed rest ssts).partitions p).levels j) :
    Y ∈ (db.partitions p).levels j ∨
      Y ∈ ssts ∧ ∃ i, Y = flushedSst part (db.nextFileId + i) epoch table p := by
  rcases flushed_partition rest hok p with ⟨hsame, -⟩ | ⟨i, -, hmem, hpush⟩
  · exact .inl (hsame ▸ hY)
  · rw [hpush] at hY
    change Y ∈ update (db.partitions p).levels 0 _ j at hY
    rw [update_apply] at hY
    split at hY
    · next hj =>
      rcases mem_append.mp hY with hY' | hY'
      · exact .inl (hj ▸ hY')
      · obtain rfl := mem_singleton.mp hY'
        exact .inr ⟨hmem, i, rfl⟩
    · exact .inl hY

theorem LsmInv.flushed (hcfg : cfg.Valid) (h : LsmInv cfg db)
    (hpend : db.pendingFlushes = (epoch, table) :: rest)
    (hok : flushMemtable part db.nextFileId epoch table.entries = .ok ssts) :
    LsmInv cfg (db.flushed rest ssts) := by
  have hunflushed : db.unflushed = tableRun epoch table :: (db.flushed rest ssts).unflushed := by
    simp [unflushed, hpend, Database.flushed]
  have hmem : tableRun epoch table ∈ db.unflushed := hunflushed ▸ mem_cons_self
  have hlater : ∀ {B}, B ∈ (db.flushed rest ssts).unflushed → B ∈ db.unflushed :=
    fun hB => hunflushed ▸ mem_cons_of_mem _ hB
  have hordered := h.ordered
  rw [hunflushed, pairwise_cons] at hordered
  have hpush : ∀ i p, partitionStep cfg p (db.partitions p)
      (.push (flushedSst part (db.nextFileId + i) epoch table p)) =
        some ((db.partitions p).pushNewSstsToL0
          (flushedSst part (db.nextFileId + i) epoch table p)) :=
    fun i p => by rw [partitionStep, if_pos (h.flushed_guard hpend i p)]
  refine ⟨fun p => ?_, fun p => ?_, fun p => ?_, hordered.2, ?_, ?_, ?_⟩
  · rcases flushed_partition rest hok p with ⟨hsame, -⟩ | ⟨i, -, -, hp⟩
    · exact hsame ▸ h.partition p
    · exact hp ▸ (h.partition p).step hcfg (a := .push _) trivial (hpush i p)
  · rcases flushed_partition rest hok p with ⟨hsame, -⟩ | ⟨i, -, -, hp⟩
    · exact hsame ▸ h.discard p
    · exact hp ▸ (h.discard p).step hcfg lastOrder_older (h.partition p).inv (hpush i p)
  · change _ ≤ db.nextFileId + ssts.length
    have hids := h.fileIds p
    rcases flushed_partition rest hok p with ⟨hsame, -⟩ | ⟨i, hi, -, hp⟩
    · rw [hsame]
      omega
    · rw [hp]
      change max (db.partitions p).nextFileId (db.nextFileId + i + 1) ≤ _
      omega
  · intro p j Y hY B hB
    rcases mem_flushed hok hY with hY' | ⟨-, i, rfl⟩
    · exact h.newer p j Y hY' B (hlater hB)
    · exact (hordered.1 B hB).mono le_rfl (flushedSst_entries _ p) le_rfl (Subset.refl _)
  · exact fun B hB => h.decodable B (hlater hB)
  · rintro X (hX | ⟨p, j, hX⟩) r hr
    · exact h.stamps X (.inl (hlater hX)) r hr
    · rcases mem_flushed hok hX with hX' | ⟨-, i, rfl⟩
      · exact h.stamps X (.inr ⟨p, j, hX'⟩) r hr
      · exact h.stamps _ (.inl hmem) r (flushedSst_entries _ p hr)

omit [LinearOrder K] in
theorem readOrder_push (hcfg : 1 ≤ cfg.maxNumLevels) (s : PartitionState K) (X : Sst K) :
    readOrder ((s.pushNewSstsToL0 X).levelList cfg) = X :: readOrder (s.levelList cfg) := by
  obtain ⟨n, hn⟩ : ∃ n, cfg.maxNumLevels = n + 1 := ⟨cfg.maxNumLevels - 1, by omega⟩
  simp [readOrder, levelList, hn, range_succ_eq_map, pushNewSstsToL0, comp_def]

theorem Database.firstHit_flushed (hcfg : 1 ≤ cfg.maxNumLevels)
    (hpend : db.pendingFlushes = (epoch, table) :: rest)
    (hok : flushMemtable part db.nextFileId epoch table.entries = .ok ssts) (k : K) :
    (db.flushed rest ssts).firstHit cfg part k = db.firstHit cfg part k := by
  have hbefore : (db.pendingFlushes.map fun q => tableRun q.1 q.2).reverse =
      (rest.map fun q => tableRun q.1 q.2).reverse ++ [tableRun epoch table] := by
    simp [hpend]
  rw [firstHit_eq, firstHit_eq db, hbefore]
  change (Option.map _ (db.table.get k)).or
    (((rest.map fun q => tableRun q.1 q.2).reverse ++ _).findSome? _) = _
  rw [append_assoc, findSome?_append, findSome?_append, findSome?_append,
    findSome?_singleton]
  rcases flushed_partition rest hok (part k) with ⟨hsame, hnone⟩ | ⟨i, -, -, hp⟩
  · rw [hsame, hnone k rfl, Option.none_or]
  · rw [hp, readOrder_push hcfg, ← singleton_append, findSome?_append,
      findSome?_singleton, find_flushedSst]

end Flush

/-! ### Compaction -/

section Compaction

variable {p : ℕ} {s t : PartitionState K} {a : PartitionStep K}

theorem partitionStep_levels (hcfg : cfg.Valid) {R : Sst K → Sst K → Prop} (h : Inv cfg p R s)
    (ha : a.isCompaction = true) (hstep : partitionStep cfg p s a = some t) :
    t.levels = s.levels ∨ ∃ level idx newIndexId io, a = .commit level idx newIndexId io := by
  cases a with
  | push sst => cases ha
  | snapshot =>
    obtain rfl := partitionStep_snapshot hstep
    exact .inl rfl
  | launch compactAll =>
    obtain ⟨snap, hsnap, rfl⟩ := partitionStep_launch hstep
    exact .inl (launch_rule hcfg (P := fun u => u.levels = s.levels)
      (fun u level isFirst inputs _ hu _ _ => hu) h hsnap rfl).2
  | commit level idx newIndexId io => exact .inr ⟨level, idx, newIndexId, io, rfl⟩
  | fail level idx =>
    obtain ⟨task, -, rfl⟩ := partitionStep_fail hstep
    exact .inl rfl
  | persist =>
    cases hstep
    exact .inl rfl
  | reload => cases ha

theorem UpperInv.mem_levels (hcfg : cfg.Valid) (h : UpperInv cfg p s) (ha : a.isCompaction = true)
    (hstep : partitionStep cfg p s a = some t) {i : ℕ} (hY : Y ∈ t.levels i) :
    Y ∈ s.levels i ∨ ∃ level inputs, (∀ I ∈ inputs, I ∈ s.levels level) ∧ OutputOf inputs Y := by
  rcases partitionStep_levels hcfg h.inv ha hstep with hsame | ⟨level, idx, newIndexId, io, rfl⟩
  · exact .inl (hsame ▸ hY)
  · obtain ⟨task, out, ht, -, -, hio, hmerge, rfl⟩ := partitionStep_commit hstep
    rcases mem_replaceInputs.mp hY with hY' | ⟨-, rfl⟩
    · exact .inl ((erasedLevel_sublist i).subset hY')
    · have hin := (h.inv.tasks.inputs level task (mem_of_getElem? ht)).2.1
      exact .inr ⟨level, task.inputs, fun I hI => hin.subset hI,
        (h.inv.merged lastOrder_older ht hio hmerge).1⟩

/-- **A commit above the last level replaces its inputs by their merge**, in the
order of reading. -/
theorem UpperInv.readOrder_commit (h : UpperInv cfg p s) {level : ℕ} {task : CompactionTask K}
    {rest : List (CompactionTask K)} (htasks : s.tasks level = task :: rest) (out : Sst K) :
    ∃ before behind, (∀ X ∈ behind, ∃ j, level < j ∧ X ∈ s.levels j) ∧
      readOrder (s.levelList cfg) = before ++ (task.inputs.reverse ++ behind) ∧
      readOrder ((s.commitTask cfg level 0 task out).levelList cfg) =
        before ++ ([out] ++ behind) := by
  have htask : task ∈ s.tasks level := htasks ▸ mem_cons_self
  obtain ⟨hne, hin, -⟩ := h.inv.tasks.inputs level task htask
  obtain ⟨I, hI⟩ := exists_mem_of_ne_nil _ hne
  have hlevel := h.inv.levels.lt_of_mem (hin.subset hI)
  have hnot : level ≠ cfg.maxNumLevels - 1 := by
    rintro rfl
    rw [h.no_last] at htasks
    cases htasks
  obtain ⟨n, hn⟩ : ∃ n, cfg.maxNumLevels = level + (2 + n) :=
    ⟨cfg.maxNumLevels - level - 2, by omega⟩
  have htarget : targetLevel cfg level = level + 1 := by unfold targetLevel; omega
  -- levels other than the two are untouched
  have hother : ∀ i, i ≠ level → i ≠ level + 1 →
      (s.commitTask cfg level 0 task out).levels i = s.levels i := by
    intro i hi hi'
    rw [commitTask_levels, htarget, if_neg hi', append_nil, erasedLevel, if_neg hi]
  have hsource : (s.commitTask cfg level 0 task out).levels level =
      rest.flatMap CompactionTask.inputs ++ s.pickables level := by
    rw [commitTask_levels, htarget, if_neg (by omega), append_nil, h.inv.erased_first htasks]
  have hnext : (s.commitTask cfg level 0 task out).levels (level + 1) =
      s.levels (level + 1) ++ [out] := by
    rw [commitTask_levels, htarget, if_pos rfl, erasedLevel, if_neg (by omega)]
  have hsplit : ∀ L : ℕ → List (Sst K), readOrder ((range cfg.maxNumLevels).map L) =
      (range level).flatMap (fun i => (L i).reverse) ++ ((L level).reverse ++
        ((L (level + 1)).reverse ++
          (range n).flatMap fun i => (L (level + (2 + i))).reverse)) := by
    intro L
    rw [hn, range_add, range_add]
    simp [readOrder, flatMap_map, comp_def, range_succ]
  refine ⟨(range level).flatMap (fun i => (s.levels i).reverse) ++
      (rest.flatMap CompactionTask.inputs ++ s.pickables level).reverse,
    (s.levels (level + 1)).reverse ++
      (range n).flatMap (fun i => (s.levels (level + (2 + i))).reverse), ?_, ?_, ?_⟩
  · intro X hX
    rcases mem_append.mp hX with hX' | hX'
    · exact ⟨level + 1, Nat.lt_succ_self _, mem_reverse.mp hX'⟩
    · obtain ⟨i, -, hXi⟩ := mem_flatMap.mp hX'
      exact ⟨level + (2 + i), by omega, mem_reverse.mp hXi⟩
  · rw [levelList, hsplit, h.inv.inputs_first htasks]
    simp
  · rw [levelList, hsplit, hsource, hnext]
    have hupper : (range level).flatMap
        (fun i => ((s.commitTask cfg level 0 task out).levels i).reverse) =
        (range level).flatMap fun i => (s.levels i).reverse := by
      refine flatMap_congr fun i hi => ?_
      have := mem_range.mp hi
      rw [hother i (by omega) (by omega)]
    have hlower : (range n).flatMap
        (fun i => ((s.commitTask cfg level 0 task out).levels (level + (2 + i))).reverse) =
        (range n).flatMap fun i => (s.levels (level + (2 + i))).reverse := by
      refine flatMap_congr fun i _ => ?_
      rw [hother _ (by omega) (by omega)]
    rw [hupper, hlower]
    simp

/-- The hit of a key in the SSTs of a partition. -/
def sstHit (cfg : SstManagerConfig) (s : PartitionState K) (k : K) : Option (Record K) :=
  (readOrder (s.levelList cfg)).findSome? fun X => X.find k

theorem UpperInv.sstHit_step (hcfg : cfg.Valid) (h : UpperInv cfg p s) (hd : DiscardOk s)
    (ha : a.isCompaction = true) (hstep : partitionStep cfg p s a = some t) (k : K) :
    sstHit cfg t k = sstHit cfg s k ∨
      sstHit cfg t k = none ∧ ∃ r, sstHit cfg s k = some r ∧ isTombstone r.value = true := by
  rcases partitionStep_levels hcfg h.inv ha hstep with hsame | ⟨level, idx, newIndexId, io, rfl⟩
  · rw [sstHit, sstHit, levelList, levelList, hsame]
    exact .inl rfl
  obtain ⟨task, out, ht, -, hpermit, hio, hmerge, rfl⟩ := partitionStep_commit hstep
  obtain ⟨-, hmerged, -⟩ := h.inv.merged lastOrder_older ht hio hmerge
  obtain ⟨rfl, rest, htasks⟩ := h.inv.tasks.head_of_permit ht hpermit
  have htask : task ∈ s.tasks level := htasks ▸ mem_cons_self
  obtain ⟨hne, hin, -⟩ := h.inv.tasks.inputs level task htask
  have hfind := hmerged.find_eq (h.inv.levels.mergeable lastOrder_older hin)
    (((h.inv.levels.pairwise level).sublist hin).imp fun hXY _ _ _ _ _ => hXY.1) k
  obtain ⟨before, behind, hbehind, hs, ht'⟩ := h.readOrder_commit htasks out.sst
  simp only [sstHit, hs, ht', findSome?_append, findSome?_singleton, hfind]
  rcases e : task.inputs.reverse.findSome? fun X => X.find k with - | r
  · exact .inl (by rw [e]; rfl)
  rw [e]
  by_cases hdrop : (task.discardDeletedKeys && isTombstone r.value) = true
  · -- a task that discards has nothing behind its inputs
    obtain ⟨hdiscard, htomb⟩ := Bool.and_eq_true_iff.mp hdrop
    have hnil : behind = [] := by
      refine eq_nil_iff_forall_not_mem.mpr fun X hX => ?_
      obtain ⟨j, hj, hXj⟩ := hbehind X hX
      obtain ⟨I, hI⟩ := exists_mem_of_ne_nil _ hne
      have hIX := h.inv.levels.across level j hj I (hin.subset hI) X hXj
      refine absurd (hd level task htask hdiscard j X hXj (fun hXin => ?_) I hI).1 hIX.1.not_gt
      exact h.inv.levels.ids_ne level j hj.ne X (hin.subset hXin) X hXj rfl
    rw [hnil, Option.filter_some, hdrop]
    rcases e' : before.findSome? fun X => X.find k with - | r' <;> rw [e']
    · exact .inr ⟨rfl, r, rfl, htomb⟩
    · exact .inl rfl
  · rw [Option.filter_some, if_pos (by rw [Bool.eq_false_iff.mpr hdrop]; rfl)]
    exact .inl rfl

theorem LsmInv.setPartition (hcfg : cfg.Valid) (h : LsmInv cfg db) (ha : a.isCompaction = true)
    (hupper : UpperStep cfg (db.partitions p) a)
    (hstep : partitionStep cfg p (db.partitions p) a = some t) :
    LsmInv cfg (db.setPartition p t) := by
  have hmem : ∀ {q i Y}, Y ∈ ((db.setPartition p t).partitions q).levels i →
      (∃ j, Y ∈ (db.partitions q).levels j) ∨
        ∃ level inputs, (∀ I ∈ inputs, I ∈ (db.partitions q).levels level) ∧ OutputOf inputs Y := by
    intro q i Y hY
    change Y ∈ (update db.partitions p t q).levels i at hY
    by_cases hq : q = p
    · subst hq
      rw [update_self] at hY
      exact ((h.partition q).mem_levels hcfg ha hstep hY).imp_left fun hY' => ⟨i, hY'⟩
    · rw [update_of_ne hq] at hY
      exact .inl ⟨i, hY⟩
  have hpart : ∀ {P : ℕ → PartitionState K → Prop}, (∀ q, P q (db.partitions q)) → P p t →
      ∀ q, P q ((db.setPartition p t).partitions q) := by
    intro P hold hnew q
    change P q (update db.partitions p t q)
    by_cases hq : q = p
    · subst hq
      rwa [update_self]
    · rw [update_of_ne hq]
      exact hold q
  refine ⟨hpart h.partition ((h.partition p).step hcfg hupper hstep),
    hpart (P := fun _ => DiscardOk) h.discard
      ((h.discard p).step hcfg lastOrder_older (h.partition p).inv hstep),
    hpart (P := fun _ s => s.nextFileId ≤ max db.nextFileId t.nextFileId)
      (fun q => (h.fileIds q).trans (le_max_left _ _)) (le_max_right _ _), h.ordered, ?_,
    h.decodable, ?_⟩
  · intro q i Y hY B hB
    rcases hmem hY with ⟨j, hY'⟩ | ⟨level, inputs, hin, hout⟩
    · exact h.newer q j Y hY' B hB
    · exact hout.older fun I hI => h.newer q level I (hin I hI) B hB
  · rintro X (hX | ⟨q, i, hX⟩) r hr
    · exact h.stamps X (.inl hX) r hr
    · rcases hmem hX with ⟨j, hX'⟩ | ⟨level, inputs, hin, hout⟩
      · exact h.stamps X (.inr ⟨q, j, hX'⟩) r hr
      · obtain ⟨I, hI, hrI⟩ := hout.entries r hr
        exact h.stamps I (.inr ⟨q, level, hin I hI⟩) r hrI

theorem LsmInv.firstHit_setPartition (hcfg : cfg.Valid) (h : LsmInv cfg db)
    (ha : a.isCompaction = true) (hstep : partitionStep cfg p (db.partitions p) a = some t)
    (k : K) :
    (db.setPartition p t).firstHit cfg part k = db.firstHit cfg part k ∨
      (db.setPartition p t).firstHit cfg part k = none ∧
        ∃ r, db.firstHit cfg part k = some r ∧ isTombstone r.value = true := by
  simp only [firstHit, sources, findSome?_append]
  change (Option.or (db.unflushed.reverse.findSome? _)
      (sstHit cfg (update db.partitions p t (part k)) k)) =
      Option.or _ (sstHit cfg (db.partitions (part k)) k) ∨
    (Option.or (db.unflushed.reverse.findSome? _)
      (sstHit cfg (update db.partitions p t (part k)) k)) = none ∧
      ∃ r, Option.or _ (sstHit cfg (db.partitions (part k)) k) = some r ∧ _
  by_cases hk : part k = p
  · subst hk
    rw [update_self]
    rcases e : db.unflushed.reverse.findSome? fun X => X.find k with - | r <;> rw [e]
    · exact (h.partition (part k)).sstHit_step hcfg (h.discard (part k)) ha hstep k
    · exact .inl rfl
  · rw [update_of_ne hk]
    exact .inl rfl

end Compaction

/-! ### Whole runs -/

/-- The steps of a run whose merges succeed and that compacts nothing inside the
last level. -/
def DatabaseStep.Upper (cfg : SstManagerConfig) (db : Database K) : DatabaseStep K → Prop
  | .compaction p a => UpperStep cfg (db.partitions p) a
  | _ => True

instance (cfg : SstManagerConfig) (db : Database K) :
    (a : DatabaseStep K) → Decidable (a.Upper cfg db)
  | .compaction p a => inferInstanceAs (Decidable (UpperStep cfg (db.partitions p) a))
  | .put _ _ | .remove _ | .switch _ | .flush => isTrue trivial

/-- The relation between the database and the plain map. -/
structure Refines (cfg : SstManagerConfig) (part : K → ℕ) (db : Database K) (m : K → Cell) :
    Prop where
  inv : LsmInv cfg db
  stored : ∀ k, (m k).Stored (db.firstHit cfg part k)

theorem refines_initial : Refines cfg part ({} : Database K) fun _ => .unwritten := by
  refine ⟨lsmInv_initial, fun k => ?_⟩
  have hempty : readOrder (({} : PartitionState K).levelList cfg) = [] := by
    simp [readOrder, levelList]
  change firstHit cfg part {} k = none
  rw [firstHit_eq, hempty]
  rfl

theorem Refines.write {m : K → Cell} (h : Refines cfg part db m) {key : K} {value : Bytes}
    (hv : Decodable value) (hc : ∀ r : Record K, r.value = value → c.Stored (some r)) :
    Refines cfg part (db.insert key value) (update m key c) := by
  refine ⟨h.inv.insert hv, fun k => ?_⟩
  rw [h.inv.firstHit_insert, update_apply]
  split
  · exact hc _ rfl
  · exact h.stored k

omit [LinearOrder K] in
theorem Cell.Stored.of_drop {hit hit' : Option (Record K)} (h : c.Stored hit)
    (hdrop : hit' = hit ∨ hit' = none ∧ ∃ r, hit = some r ∧ isTombstone r.value = true) :
    c.Stored hit' := by
  rcases hdrop with rfl | ⟨rfl, r, rfl, htomb⟩
  · exact h
  · cases c with
    | unwritten => rfl
    | value data =>
      rw [show r.value = encodeValue .inPlaceValue data from Option.some.inj h] at htomb
      cases htomb
    | removed => exact fun r hr => by cases hr

section Step

variable {epoch p : ℕ}

theorem databaseStep_switch (h : databaseStep cfg part db (.switch epoch) = some db') :
    db.flushIteration ≤ epoch ∧ db' = db.switch epoch := by
  obtain ⟨he, hs⟩ := Option.ite_none_right_eq_some.mp h
  exact ⟨he, (Option.some.inj hs).symm⟩

theorem databaseStep_flush (h : databaseStep cfg part db .flush = some db') :
    ∃ epoch table rest ssts, db.pendingFlushes = (epoch, table) :: rest ∧
      flushMemtable part db.nextFileId epoch table.entries = .ok ssts ∧
      db' = db.flushed rest ssts := by
  rw [databaseStep] at h
  split at h
  · cases h
  · next epoch table rest hpend =>
    split at h
    · cases h
    · next ssts hok =>
      cases h
      exact ⟨epoch, table, rest, ssts, hpend, hok, rfl⟩

theorem databaseStep_compaction {a : PartitionStep K}
    (h : databaseStep cfg part db (.compaction p a) = some db') :
    a.isCompaction = true ∧ ∃ t, partitionStep cfg p (db.partitions p) a = some t ∧
      db' = db.setPartition p t := by
  obtain ⟨ha, hs⟩ := Option.ite_none_right_eq_some.mp h
  obtain ⟨t, ht, rfl⟩ := Option.map_eq_some_iff.mp hs
  exact ⟨ha, t, ht, rfl⟩

end Step

theorem Refines.step (hcfg : cfg.Valid) {m : K → Cell} (h : Refines cfg part db m)
    {a : DatabaseStep K} (ha : a.Upper cfg db) (hstep : databaseStep cfg part db a = some db') :
    Refines cfg part db' (a.write m) := by
  cases a with
  | put key value =>
    cases hstep
    exact h.write ⟨_, valueFromSpan_put value⟩ fun r hr => congrArg some hr
  | remove key =>
    cases hstep
    refine h.write ⟨_, valueFromSpan_remove⟩ fun r hr r' hr' => ?_
    cases hr'
    exact hr
  | switch epoch =>
    obtain ⟨he, rfl⟩ := databaseStep_switch hstep
    refine ⟨h.inv.switch he, fun k => ?_⟩
    rw [firstHit_switch]
    exact h.stored k
  | flush =>
    obtain ⟨epoch, table, rest, ssts, hpend, hok, rfl⟩ := databaseStep_flush hstep
    refine ⟨h.inv.flushed hcfg hpend hok, fun k => ?_⟩
    rw [firstHit_flushed hcfg.levels hpend hok]
    exact h.stored k
  | compaction p a =>
    obtain ⟨hcompact, t, ht, rfl⟩ := databaseStep_compaction hstep
    exact ⟨h.inv.setPartition hcfg hcompact ha ht,
      fun k => (h.stored k).of_drop (h.inv.firstHit_setPartition hcfg hcompact ht k)⟩

/-- **LSM reads refine a plain map.**  After every run of writes, table switches,
flushes and compactions, `get_async` answers for every key what was last written
under it. -/
theorem reads_refine_map (cfg : SstManagerConfig) (hcfg : cfg.Valid) (part : K → ℕ)
    (as : List (DatabaseStep K)) (db : Database K)
    (hall : Run.AllSteps (databaseStep cfg part) (fun db a => a.Upper cfg db) {} as)
    (hrun : Run.exec (databaseStep cfg part) {} as = some db)
    (probe : Sst K → K → Bool) (hprobe : NoFalseNegatives probe) (toHexString : K → String)
    (k : K) :
    (lastWrites as k).Answer (db.getAsync cfg part probe toHexString k) := by
  have h : Refines cfg part db (lastWrites as) :=
    Run.exec_simulation (fun _ _ _ _ h ha hstep => h.step hcfg ha hstep)
      refines_initial hall hrun
  exact h.inv.answer hprobe toHexString (h.stored k)

/-- Two tables are written and flushed, merged with tombstones dropped, and a
third write stays in memory. -/
def exampleDatabaseRun : List (DatabaseStep ℕ) :=
  [ .put 1 [10], .put 2 [20], .switch 0, .put 2 [21], .remove 1, .switch 1, .flush, .flush,
    .compaction 0 .snapshot, .compaction 0 (.launch false), .put 3 [30],
    .compaction 0 (.commit 0 0 2 exampleIo) ]

theorem reads_refine_map_example :
    ∃ db, Run.exec (databaseStep ⟨2, 2, 4⟩ fun _ => 0) {} exampleDatabaseRun = some db ∧
      ∀ k, (lastWrites exampleDatabaseRun k).Answer
        (db.getAsync ⟨2, 2, 4⟩ (fun _ => 0) (fun _ _ => true) toString k) := by
  have hall : Run.AllSteps (databaseStep ⟨2, 2, 4⟩ fun _ => 0)
      (fun db a => a.Upper ⟨2, 2, 4⟩ db) {} exampleDatabaseRun := by decide
  have hsome : (Run.exec (databaseStep ⟨2, 2, 4⟩ fun _ => 0) {} exampleDatabaseRun).isSome := by
    decide
  obtain ⟨db, hdb⟩ := Option.isSome_iff_exists.mp hsome
  exact ⟨db, hdb, reads_refine_map ⟨2, 2, 4⟩ ⟨by decide, by decide, by decide⟩ (fun _ => 0)
    exampleDatabaseRun db hall hdb (fun _ _ => true) (fun _ _ _ => rfl) toString⟩

end HedgeDB
