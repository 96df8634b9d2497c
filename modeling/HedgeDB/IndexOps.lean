/-
HedgeDB/IndexOps.lean

Flushing a table into SSTs (`src/db/index_ops.cc`).

The table is iterated in `memtable_cmp` order and cut into runs of equal
partition id; each run is written by `_write_index`, which keeps the first
(newest) version of every key and records the largest sequence number it
wrote.  The runs are written to files named after partition and flush
iteration, so a partition met twice makes the second creation fail.

A successful flush gives a partition nothing or one SST, of the table's entries
of that partition (`flushMemtable_partition`), and a lookup in that SST finds what
the table's `get` finds (`find_exportAsSst`).
-/
import HedgeDB.Skiplist
import HedgeDB.Sst

namespace HedgeDB

open List hiding lookup
open KeyedList

variable {K : Type*} [LinearOrder K]

/-! ### Writing one run -/

/-- The loop of `_write_index`: the entries it writes and the `max_seq_nr` it
ends with. -/
def writeIndex : Option K → ℕ → List (MemtableEntry K) → List (MemtableEntry K) × ℕ
  | _, maxSeqNr, [] => ([], maxSeqNr)
  | prevKey, maxSeqNr, e :: es =>
      -- an older version of the key just written is skipped
      if prevKey = some e.key then writeIndex prevKey maxSeqNr es
      else
        let r := writeIndex (some e.key) (max maxSeqNr e.seq) es
        (e :: r.1, r.2)

theorem writeIndex_fst (prev : Option K) (m : ℕ) (es : List (MemtableEntry K)) :
    (writeIndex prev m es).1 = firsts MemtableEntry.key prev es := by
  induction es generalizing prev m with
  | nil => rfl
  | cons e es ih =>
    rw [writeIndex, firsts]
    split
    · exact ih prev m
    · exact congrArg (e :: ·) (ih _ _)

theorem writeIndex_snd (prev : Option K) (m : ℕ) (es : List (MemtableEntry K)) :
    (writeIndex prev m es).2 =
      (firsts MemtableEntry.key prev es).foldl (fun acc e => max acc e.seq) m := by
  induction es generalizing prev m with
  | nil => rfl
  | cons e es ih =>
    rw [writeIndex, firsts]
    split
    · exact ih prev m
    · exact ih _ _

/-- The SST entry a table entry is written as. -/
def MemtableEntry.toRecord (e : MemtableEntry K) : Record K := ⟨e.key, e.seq, e.value⟩

/-- `_export_as_sst_async` for one partition range. -/
def exportAsSst (fileId flushIteration : ℕ) (range : ℕ × List (MemtableEntry K)) : Sst K :=
  let index := writeIndex none 0 range.2
  { id := fileId
    indexId := flushIteration
    epoch := flushIteration
    upperBound := range.1
    maxSeqNr := index.2
    entries := index.1.map MemtableEntry.toRecord }

/-! ### Cutting the table into partition ranges -/

/-- The loop of `_partition_ranges_generator`: `acc` is the range collected so
far under partition `cur`. -/
def partitionRangesFrom (part : K → ℕ) :
    ℕ → List (MemtableEntry K) → List (MemtableEntry K) → List (ℕ × List (MemtableEntry K))
  | cur, acc, [] => [(cur, acc)]
  | cur, acc, e :: es =>
      if part e.key ≠ cur then
        (cur, acc) :: partitionRangesFrom part (part e.key) [e] es
      else partitionRangesFrom part cur (acc ++ [e]) es

/-- `_partition_ranges_generator`. -/
def partitionRanges (part : K → ℕ) :
    List (MemtableEntry K) → List (ℕ × List (MemtableEntry K))
  | [] => []
  | e :: es => partitionRangesFrom part (part e.key) [] (e :: es)

/-- `index_ops::flush_memtable`.  `part` is `find_partition_prefix_for_key` at
the configured partition size. -/
def flushMemtable (part : K → ℕ) (fileId flushIteration : ℕ)
    (entries : List (MemtableEntry K)) : Expected (List (Sst K)) :=
  let ranges := partitionRanges part entries
  if (ranges.map Prod.fst).Nodup then
    .ok (ranges.mapIdx fun i range => exportAsSst (fileId + i) flushIteration range)
  else
    .error { msg := "Parallel flush failed: Failed to create sorted index file: File already exists" }

omit [LinearOrder K] in
theorem partitionRangesFrom_flatten (part : K → ℕ) (cur : ℕ)
    (acc es : List (MemtableEntry K)) :
    (partitionRangesFrom part cur acc es).flatMap Prod.snd = acc ++ es := by
  induction es generalizing cur acc with
  | nil => simp [partitionRangesFrom]
  | cons e es ih =>
    rw [partitionRangesFrom]
    split
    · rw [flatMap_cons, ih]; rfl
    · rw [ih, append_assoc]; rfl

variable {es : List (MemtableEntry K)} {part : K → ℕ}

section

omit [LinearOrder K]

theorem partitionRangesFrom_part {cur : ℕ} {acc : List (MemtableEntry K)}
    (hacc : ∀ e ∈ acc, part e.key = cur) :
    ∀ range ∈ partitionRangesFrom part cur acc es,
      ∀ e ∈ range.2, part e.key = range.1 := by
  induction es generalizing cur acc with
  | nil =>
    intro range hr
    obtain rfl := mem_singleton.mp hr
    exact hacc
  | cons e es ih =>
    intro range hr
    rw [partitionRangesFrom] at hr
    split at hr
    · rcases mem_cons.mp hr with rfl | hr'
      · exact hacc
      · exact ih (by simp) range hr'
    · next h =>
      refine ih ?_ range hr
      intro a ha
      rcases mem_append.mp ha with ha' | ha'
      · exact hacc a ha'
      · obtain rfl := mem_singleton.mp ha'
        exact not_not.mp h

theorem partitionRanges_flatten (part : K → ℕ) (es : List (MemtableEntry K)) :
    (partitionRanges part es).flatMap Prod.snd = es := by
  rcases es with - | ⟨e, es⟩
  · rfl
  · exact partitionRangesFrom_flatten part _ [] (e :: es)

theorem partitionRanges_part :
    ∀ range ∈ partitionRanges part es, ∀ e ∈ range.2, part e.key = range.1 := by
  rcases es with - | ⟨e, es⟩
  · intro range hr; simp [partitionRanges] at hr
  · exact partitionRangesFrom_part (by simp)

end

/-! ### What a flush writes for one partition -/

variable {ranges : List (ℕ × List (MemtableEntry K))} {p : ℕ}

omit [LinearOrder K] in
theorem filter_flatMap_ranges (hpart : ∀ range ∈ ranges, ∀ e ∈ range.2, part e.key = range.1) :
    (ranges.flatMap Prod.snd).filter (fun e => part e.key = p) =
      (ranges.filter fun range => range.1 = p).flatMap Prod.snd := by
  induction ranges with
  | nil => rfl
  | cons r ranges ih =>
    have hr := hpart r mem_cons_self
    rw [flatMap_cons, filter_append, ih fun r' h => hpart r' (mem_cons_of_mem r h)]
    by_cases h : r.1 = p
    · rw [filter_cons_of_pos (by simpa using h), flatMap_cons,
        filter_eq_self.mpr fun e he => by simpa using (hr e he).trans h]
    · rw [filter_cons_of_neg (by simpa using h),
        filter_eq_nil_iff.mpr fun e he => by simpa [hr e he] using h]
      rfl

variable {range : ℕ × List (MemtableEntry K)}

theorem find_exportAsSst (fileId epoch : ℕ) (hs : range.2.Pairwise fun a b => a.key ≤ b.key)
    (k : K) :
    (exportAsSst fileId epoch range).find k =
      (lookup MemtableEntry.key range.2 k).map MemtableEntry.toRecord := by
  rw [← lookup_firsts hs k, ← writeIndex_fst none 0]
  exact lookup_map MemtableEntry.toRecord _ k

theorem exportAsSst_sorted (fileId epoch : ℕ) (hs : range.2.Pairwise fun a b => a.key ≤ b.key) :
    (exportAsSst fileId epoch range).Sorted := by
  simp only [Sst.Sorted, exportAsSst, writeIndex_fst, pairwise_map]
  exact firsts_strict none hs

variable {epoch : ℕ}

theorem mem_exportAsSst {fileId : ℕ} {r : Record K}
    (h : r ∈ (exportAsSst fileId epoch range).entries) : ∃ e ∈ range.2, e.toRecord = r := by
  simp only [exportAsSst, writeIndex_fst] at h
  obtain ⟨e, he, rfl⟩ := mem_map.mp h
  exact ⟨e, (firsts_sublist none _).subset he, rfl⟩

omit [LinearOrder K] in
/-- The ranges of a successful flush under one partition: none, or a single
one that holds every entry of the partition. -/
theorem ranges_of_partition (hnd : ((partitionRanges part es).map Prod.fst).Nodup) (p : ℕ) :
    ((partitionRanges part es).filter fun range => range.1 = p) = [] ∧
        es.filter (fun e => part e.key = p) = [] ∨
      ((partitionRanges part es).filter fun range => range.1 = p) =
        [(p, es.filter fun e => part e.key = p)] := by
  have hfilter : ((partitionRanges part es).flatMap Prod.snd).filter (fun e => part e.key = p) = _ :=
    filter_flatMap_ranges partitionRanges_part
  rw [partitionRanges_flatten] at hfilter
  have hnd' := hnd.sublist ((filter_sublist (p := fun range => range.1 = p)).map Prod.fst)
  have hall : ∀ r ∈ (partitionRanges part es).filter fun range => range.1 = p, r.1 = p :=
    fun r hr => by simpa using (mem_filter.mp hr).2
  revert hfilter hnd' hall
  generalize ((partitionRanges part es).filter fun range => range.1 = p) = rs
  intro hfilter hnd' hall
  rcases rs with - | ⟨r, - | ⟨r', rs⟩⟩
  · exact .inl ⟨rfl, hfilter⟩
  · refine .inr ?_
    rw [hfilter, ← hall r (by simp)]
    simp
  · -- two ranges under one id cannot both be created
    have hr : r.1 = r'.1 := (hall r (by simp)).trans (hall r' (by simp)).symm
    simp [hr] at hnd'

theorem filter_exports_nil (base : ℕ) (hnil : (ranges.filter fun r => r.1 = p) = []) :
    ((ranges.mapIdx fun i r => exportAsSst (base + i) epoch r).filter
      fun X => X.upperBound = p) = [] := by
  rw [filter_eq_nil_iff] at hnil ⊢
  intro X hX
  obtain ⟨i, hi, rfl⟩ := mem_mapIdx.mp hX
  exact hnil _ (getElem_mem hi)

theorem filter_exports (base epoch : ℕ) (hone : (ranges.filter fun r => r.1 = p) = [range]) :
    ∃ i < ranges.length, ((ranges.mapIdx fun i r => exportAsSst (base + i) epoch r).filter
      fun X => X.upperBound = p) = [exportAsSst (base + i) epoch range] := by
  induction ranges generalizing base with
  | nil => simp at hone
  | cons r ranges ih =>
    have hbase : (fun (i : ℕ) (r : ℕ × List (MemtableEntry K)) =>
        exportAsSst (base + (i + 1)) epoch r) = fun i r => exportAsSst (base + 1 + i) epoch r := by
      funext i r
      rw [Nat.add_assoc, Nat.add_comm 1 i]
    rw [mapIdx_cons, hbase]
    by_cases hr : r.1 = p
    · have hr' : (exportAsSst (base + 0) epoch r).upperBound = p := hr
      rw [filter_cons_of_pos (by simpa using hr)] at hone
      obtain ⟨rfl, hnil⟩ := cons.inj hone
      refine ⟨0, by simp, ?_⟩
      rw [filter_cons_of_pos (by simpa using hr'), filter_exports_nil _ hnil]
    · have hr' : (exportAsSst (base + 0) epoch r).upperBound ≠ p := hr
      rw [filter_cons_of_neg (by simpa using hr)] at hone
      obtain ⟨i, hi, he⟩ := ih (base + 1) hone
      refine ⟨i + 1, by simpa using hi, ?_⟩
      rw [filter_cons_of_neg (by simpa using hr'), he, Nat.add_assoc, Nat.add_comm 1 i]

/-- What a successful flush hands to partition `p`: nothing, if the table has no
entry of `p`, or one SST of the table's entries of `p`. -/
theorem flushMemtable_partition {fileId : ℕ} {ssts : List (Sst K)}
    (hok : flushMemtable part fileId epoch es = .ok ssts) (p : ℕ) :
    (ssts.filter fun X => X.upperBound = p) = [] ∧ es.filter (fun e => part e.key = p) = [] ∨
      ∃ i < ssts.length, (ssts.filter fun X => X.upperBound = p) =
        [exportAsSst (fileId + i) epoch (p, es.filter fun e => part e.key = p)] := by
  unfold flushMemtable at hok
  dsimp only at hok
  split at hok
  · next hnd =>
    cases hok
    rw [length_mapIdx]
    rcases ranges_of_partition hnd p with ⟨hnil, hes⟩ | hone
    · exact .inl ⟨filter_exports_nil _ hnil, hes⟩
    · exact .inr (filter_exports fileId epoch hone)
  · cases hok

/-! ### The recorded sequence numbers -/

omit [LinearOrder K] in
theorem partitionRangesFrom_ne_nil {cur : ℕ} {acc : List (MemtableEntry K)}
    (hne : acc ≠ [] ∨ ∃ e, es.head? = some e ∧ part e.key = cur) :
    ∀ range ∈ partitionRangesFrom part cur acc es, range.2 ≠ [] := by
  induction es generalizing cur acc with
  | nil =>
    intro range hr
    obtain rfl := mem_singleton.mp hr
    exact hne.resolve_right (by simp)
  | cons e es ih =>
    intro range hr
    rw [partitionRangesFrom] at hr
    split at hr
    · next hcut =>
      rcases mem_cons.mp hr with rfl | hr'
      · -- a range is only cut after something was collected
        refine hne.resolve_right ?_
        rintro ⟨e', he', hpart⟩
        obtain rfl := Option.some.inj he'
        exact hcut hpart
      · exact ih (.inl (by simp)) range hr'
    · exact ih (.inl (by simp)) range hr

omit [LinearOrder K] in
theorem partitionRanges_ne_nil : ∀ range ∈ partitionRanges part es, range.2 ≠ [] := by
  rcases es with - | ⟨e, es⟩
  · intro range hr; simp [partitionRanges] at hr
  · exact partitionRangesFrom_ne_nil (.inr ⟨e, rfl, rfl⟩)

variable {e : MemtableEntry K}

theorem le_exportAsSst_maxSeqNr (fileId epoch : ℕ)
    (hs : range.2.Pairwise fun a b => memtableCmp a b = true) (he : e ∈ range.2) :
    e.seq ≤ (exportAsSst fileId epoch range).maxSeqNr := by
  have hkeys := sorted_keys hs
  -- the first version under the key is written, and it is the newest
  obtain ⟨a, ha⟩ : ∃ a, lookup MemtableEntry.key range.2 e.key = some a :=
    Option.ne_none_iff_exists'.mp fun hnone => lookup_eq_none_iff.mp hnone e he rfl
  have hle : e.seq ≤ a.seq := lookup_newest hs ha he rfl
  obtain ⟨-, hk⟩ := lookup_mem ha
  have hwritten : a ∈ firsts MemtableEntry.key none range.2 :=
    (mem_firsts_iff hkeys).mpr (hk ▸ ha)
  refine hle.trans ?_
  simp only [exportAsSst, writeIndex_snd]
  exact (le_foldl_max MemtableEntry.seq _ 0).2 a hwritten

theorem exportAsSst_maxSeqNr_mem (fileId epoch : ℕ) (range : ℕ × List (MemtableEntry K))
    (hne : range.2 ≠ []) :
    ∃ e ∈ range.2, (exportAsSst fileId epoch range).maxSeqNr = e.seq := by
  simp only [exportAsSst, writeIndex_snd]
  have hfirsts : firsts MemtableEntry.key none range.2 ≠ [] := by
    rcases e : range.2 with - | ⟨a, l⟩
    · exact absurd e hne
    · simp [firsts]
  obtain ⟨a, ha, heq⟩ := foldl_max_mem MemtableEntry.seq hfirsts
  exact ⟨a, (firsts_sublist none _).subset ha, heq⟩

section Flushed

variable {part : K → ℕ} {fileId epoch : ℕ} {es : List (MemtableEntry K)} {ssts : List (Sst K)}

theorem mem_flushMemtable (hok : flushMemtable part fileId epoch es = .ok ssts) {X : Sst K}
    (hX : X ∈ ssts) : ∃ i, es.filter (fun e => part e.key = X.upperBound) ≠ [] ∧
      X = exportAsSst (fileId + i) epoch
        (X.upperBound, es.filter fun e => part e.key = X.upperBound) := by
  have hmem : X ∈ ssts.filter fun Y => Y.upperBound = X.upperBound :=
    mem_filter.mpr ⟨hX, by simp⟩
  unfold flushMemtable at hok
  dsimp only at hok
  split at hok
  · next hnd =>
    cases hok
    rcases ranges_of_partition hnd X.upperBound with ⟨hnil, -⟩ | hone
    · rw [filter_exports_nil _ hnil] at hmem
      cases hmem
    · obtain ⟨i, -, he⟩ := filter_exports fileId epoch hone
      rw [he] at hmem
      refine ⟨i, ?_, mem_singleton.mp hmem⟩
      have hrange : (X.upperBound, es.filter fun e => part e.key = X.upperBound) ∈
          partitionRanges part es :=
        (mem_filter.mp (hone ▸ mem_singleton_self _)).1
      exact partitionRanges_ne_nil _ hrange
  · cases hok

theorem exists_flushMemtable (hok : flushMemtable part fileId epoch es = .ok ssts) (he : e ∈ es) :
    ∃ i, exportAsSst (fileId + i) epoch
      (part e.key, es.filter fun a => part a.key = part e.key) ∈ ssts := by
  rcases flushMemtable_partition hok (part e.key) with ⟨-, hnil⟩ | ⟨i, -, hone⟩
  · exact absurd (mem_filter.mpr ⟨he, by simp⟩) (hnil ▸ not_mem_nil)
  · exact ⟨i, (mem_filter.mp (hone ▸ mem_singleton_self _)).1⟩

theorem flushMemtable_covers (hs : es.Pairwise fun a b => memtableCmp a b = true)
    (hok : flushMemtable part fileId epoch es = .ok ssts) (he : e ∈ es) :
    ∃ X ∈ ssts, e.seq ≤ X.maxSeqNr := by
  obtain ⟨i, hX⟩ := exists_flushMemtable hok he
  exact ⟨_, hX, le_exportAsSst_maxSeqNr _ _ (hs.sublist filter_sublist)
    (mem_filter.mpr ⟨he, by simp⟩)⟩

theorem flushMemtable_maxSeqNr (hok : flushMemtable part fileId epoch es = .ok ssts) {X : Sst K}
    (hX : X ∈ ssts) : ∃ e ∈ es, X.maxSeqNr = e.seq := by
  obtain ⟨i, hne, heq⟩ := mem_flushMemtable hok hX
  obtain ⟨e, he, hseq⟩ := exportAsSst_maxSeqNr_mem (fileId + i) epoch (X.upperBound, _) hne
  exact ⟨e, (mem_filter.mp he).1, (congrArg Sst.maxSeqNr heq).trans hseq⟩

theorem flushMemtable_writes (hs : es.Pairwise fun a b => memtableCmp a b = true)
    (hok : flushMemtable part fileId epoch es = .ok ssts)
    (he : lookup MemtableEntry.key es e.key = some e) :
    ∃ X ∈ ssts, X.upperBound = part e.key ∧ e.toRecord ∈ X.entries := by
  obtain ⟨i, hX⟩ := exists_flushMemtable hok (lookup_mem he).1
  refine ⟨_, hX, rfl, ?_⟩
  have hkeys := (sorted_keys hs).sublist (filter_sublist (p := fun a => part a.key = part e.key))
  simp only [exportAsSst, writeIndex_fst]
  refine mem_map_of_mem ((mem_firsts_iff hkeys).mpr ?_)
  rw [← he]
  exact lookup_filter es (fun k => decide (part k = part e.key)) e.key (by simp)

end Flushed

end HedgeDB
