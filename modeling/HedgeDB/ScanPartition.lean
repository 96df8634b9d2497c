/-
HedgeDB/ScanPartition.lean

Which keys a scan of the database returns (`database::scan`,
`range_iterator::make_new`, `memtable::acquire_snapshot`).

`scan` takes the partition of the lower bound, or of the upper one if there is no lower,
and merges the SSTs of this partition with the tables in memory.  The tables hold keys
of all partitions, so the scan returns the keys that are live in this mix
(`Quiescent.emits_iff`): those of the partition, and those of other partitions that have
a live version in memory.  After a flush the latter are gone from the result.  A flush
changes no live key (`exec_flushes`), so without such keys the result stays the same.

How entries lie on pages and how many pages a read takes are parameters (`ScanIo`), for the
SSTs that are read back.  For bounds the wrong way round nothing is returned; how such a
scan ends is the subject of `ScanEnds`.
-/
import HedgeDB.PageRange
import HedgeDB.Quiescent
import HedgeDB.ScanEnds

namespace HedgeDB

open List hiding lookup_eq_some_iff
open KeyedList PartitionState

variable {K : Type*} [LinearOrder K]

/-! ### What a cursor reads of a table -/

section Cursors

variable {t : Skiplist K} {c : MemtableCursor K}

theorem popFront_suffix {e : MemtableEntry K} {l : List (MemtableEntry K)} (hit : c.it = some e)
    (h : e :: l <:+ t.entries) :
    ∃ l', l' <:+ l ∧ (c.popFront t).it = l'.head? ∧
      ∀ a ∈ l'.head?, some a = c.endIt ∨ a.key ≠ e.key := by
  have hl : l <:+ t.entries := (suffix_cons e l).trans h
  obtain ⟨l₁, hl₁, hrest₁, -⟩ : ∃ l₁, l₁ <:+ l ∧
      skipWhile t c.endIt (fun a => a.seq > c.maxSeq) t.entries.length l.head? = l₁.head? ∧ _ :=
    skipWhile_suffix hl hl.length_le
  obtain ⟨l₂, hl₂, hrest₂, hstop⟩ : ∃ l₂, l₂ <:+ l₁ ∧
      skipWhile t c.endIt (fun a => a.key = e.key) t.entries.length l₁.head? = l₂.head? ∧ _ :=
    skipWhile_suffix (hl₁.trans hl) (hl₁.trans hl).length_le
  refine ⟨l₂, hl₂.trans hl₁, ?_, ?_⟩
  · rw [MemtableCursor.popFront, hit]
    show skipWhile t c.endIt _ _ (skipWhile t c.endIt _ _ (t.next e)) = _
    rw [next_eq h, hrest₁, hrest₂]
  · intro a ha
    simpa using hstop a ha

theorem MemtableCursor.HandsOut.eq_nil_of_isEof {ends : Bool} {rs : List (Record K)}
    (h : c.HandsOut t ends rs) (heof : c.isEof = true) : rs = [] := by
  cases h with
  | eof _ => rfl
  | lost _ => rfl
  | entry hnot _ _ => exact absurd (heof.symm.trans hnot) nofun

/-- A cursor hands out nodes of its list with increasing keys, wherever it ends. -/
theorem MemtableCursor.HandsOut.increasing {ends : Bool} {rs : List (Record K)}
    (h : c.HandsOut t ends rs) {l : List (MemtableEntry K)} (hl : l <:+ t.entries)
    (hit : c.it = l.head?) :
    ∃ es : List (MemtableEntry K), rs = es.map MemtableEntry.toRecord ∧
      es.Pairwise (fun a b => a.key < b.key) ∧ ∀ e ∈ es, e ∈ l := by
  induction h generalizing l with
  | eof _ => exact ⟨[], rfl, .nil, nofun⟩
  | lost _ => exact ⟨[], rfl, .nil, nofun⟩
  | @entry ends c e rs hnot hite hrest ih =>
    obtain ⟨l, rfl⟩ : ∃ l', l = e :: l' := head?_eq_some_iff.mp (hit.symm.trans hite)
    obtain ⟨l', hl', hpop, hstop⟩ := popFront_suffix hite hl
    obtain ⟨es, rfl, hes, hmem⟩ := ih (hl'.trans ((suffix_cons e l).trans hl)) hpop
    refine ⟨e :: es, rfl, pairwise_cons.mpr ⟨?_, hes⟩, ?_⟩
    · intro a ha
      have hsorted := t.sorted.sublist hl.sublist
      have hle := (pairwise_cons.mp (sorted_keys hsorted)).1 a (hl'.subset (hmem a ha))
      -- there is a further entry, so the cursor did not come to its end
      have hother : ∀ b ∈ l'.head?, b.key ≠ e.key := by
        intro b hb
        rcases hstop b hb with hend | hne
        · have heof : (c.popFront t).isEof = true := by
            rw [MemtableCursor.isEof, decide_eq_true_iff, hpop, hb, hend, MemtableCursor.popFront,
              hite]
            rfl
          rw [map_eq_nil_iff.mp (hrest.eq_nil_of_isEof heof)] at ha
          cases ha
        · exact hne
      exact lt_of_le_of_ne hle (key_ne_of_suffix hsorted hl' hother (hmem a ha)).symm
    · intro a ha
      rcases mem_cons.mp ha with rfl | ha'
      · exact mem_cons_self
      · exact mem_cons_of_mem e (hl'.subset (hmem a ha'))

/-- **What a cursor reads of a table** all of which is visible: within the bounds the
newest version of each key. -/
theorem MemtableCursor.exists_handsOut_newest (t : Skiplist K) (table : ℕ)
    (lower upper : Option K) (epoch : ℕ) {maxSeq : ℕ} (hvis : ∀ e ∈ t.entries, e.seq ≤ maxSeq) :
    ∃ ends, ∃ es : List (MemtableEntry K),
      (MemtableCursor.make t table lower upper epoch maxSeq).HandsOut t ends
        (es.map MemtableEntry.toRecord) ∧ es.Pairwise (fun a b => a.key < b.key) ∧
      ∀ e, InRange lower upper e.key → (e ∈ es ↔ NewestVisible t maxSeq e) := by
  rcases start_cases t lower upper with ⟨seg, hseg⟩ | hpast
  · have h : IsRange t lower upper seg := ⟨hseg.symm⟩
    have hnext : NoHiddenNext maxSeq (seg.dropWhile fun a => maxSeq < a.seq) := by
      intro e₁ e₂ e₃ after hsuffix _ _ _
      have hmem := (hsuffix.trans (dropWhile_suffix _)).subset (by simp : e₃ ∈ _)
      exact hvis e₃ (h.mem hmem).1
    refine ⟨true, _, MemtableCursor.handsOut_true_iff.mpr (h.yields table epoch hnext),
      h.firsts_increasing maxSeq, fun e hrange => ⟨h.newestVisible, fun he => ?_⟩⟩
    refine h.mem_firsts_of_newest (h.mem_of_upperVisible ?_ he hrange) he
    exact fun _ _ _ a ha _ _ _ _ _ => hvis a ha
  · obtain ⟨ends, rs, hout⟩ := MemtableCursor.exists_handsOut t
      (.make t table lower upper epoch maxSeq)
    obtain ⟨e, after, l, hsuffix, -, hl, hit⟩ := make_pastEnd table epoch hpast
    have hl' : l <:+ t.entries := hl.trans ((suffix_cons e after).trans hsuffix)
    obtain ⟨es, rfl, hes, -⟩ := hout.increasing hl' hit
    refine ⟨ends, es, hout, hes, fun x hrange => ?_⟩
    -- the bounds are the wrong way round
    obtain ⟨a, b, after, hu, hafter⟩ := hpast
    have hsuffix' : a :: b :: after <:+ t.entries := hu ▸ dropWhile_suffix _
    have hnot : a ∉ fromLower t lower :=
      notMem_of_suffix hsuffix' (hafter.trans (suffix_cons b after))
    obtain ⟨-, l, hl, u, hu', hua, hal⟩ := between_of_notMem (by rw [hu]; simp) hnot
    exact absurd ((hrange.1 l hl).trans (hrange.2 u hu')) (hua.trans_lt hal).not_ge

end Cursors

/-! ### The scan -/

/-- The files of the SSTs, and how the reader cuts a run of pages into chunks. -/
structure ScanIo where
  file : Sst Bytes → SstPages
  chunks : List (List (Record Bytes)) → List (Chunk Bytes)

/-- The pages of an SST that is read back hold the entries in order, the chunks the pages;
none is empty. -/
structure ScanIo.Serves (io : ScanIo) : Prop where
  file : ∀ X : Sst Bytes, X.Sorted → X.InFile → (io.file X).pages.flatten = X.entries
  chunks : ∀ pages, (io.chunks pages).flatMap Chunk.entries = pages.flatten
  chunk_ne : ∀ pages, (∀ page ∈ pages, page ≠ []) → ∀ c ∈ io.chunks pages, c.entries ≠ []

/-- The stream over the pages that a range needs of an SST. -/
def rangeStream (io : ScanIo) (lower upper : Option Bytes) (X : Sst Bytes) :
    Option (SstStream Bytes) :=
  let file := io.file X
  (file.findRange lower upper).map fun range =>
    { index := X
      reader := io.chunks (file.pagesBetween (file.startOffset range) (file.endOffset range)) }

/-- `memtable::snapshot`. -/
structure MemtableSnapshot (K : Type*) [LinearOrder K] where
  seqNr : ℕ
  curr : Skiplist K
  pendingFlushes : List (ℕ × Skiplist K)

/-- The tables of a snapshot by number: the current one, then the pending ones. -/
def MemtableSnapshot.tables (s : MemtableSnapshot K) : Tables K := fun i =>
  (s.curr :: s.pendingFlushes.map Prod.snd)[i]?.getD .empty

/-- `range_iterator::make_new` and the constructor.  Pending tables that share the epoch
of an SST are dropped. -/
def RangeIterator.makeNew (io : ScanIo) (snapshot : MemtableSnapshot Bytes)
    (partition : List (List (Sst Bytes))) (lower upper : Option Bytes) : RangeIterator Bytes :=
  let streams := partition.flatten.filterMap (rangeStream io lower upper)
  let pendingFlushes := (snapshot.pendingFlushes.zipIdx 1).filter fun q =>
    ∀ s ∈ streams, s.index.epoch ≠ q.1.1
  { sources := streams.map .stream ++
      .cursor (.make snapshot.curr 0 lower upper uint64Max snapshot.seqNr) ::
        pendingFlushes.map fun q => .cursor (.make q.1.2 q.2 lower upper q.1.1 uint64Max)
    lower, upper }

namespace Database

def acquireSnapshot (db : Database K) : MemtableSnapshot K :=
  ⟨db.seqNr, db.table, db.pendingFlushes⟩

/-- `database::scan`; without a bound it dereferences an empty optional. -/
def scan (io : ScanIo) (cfg : SstManagerConfig) (part : Bytes → ℕ) (db : Database Bytes)
    (lower upper : Option Bytes) : Option (RangeIterator Bytes) :=
  (lower <|> upper).map fun boundKey =>
    .makeNew io db.acquireSnapshot ((db.partitions (part boundKey)).levelList cfg) lower upper

end Database

/-- A call of `next` returns the key. -/
def RangeIterator.Emits (mem : Tables K) (it : RangeIterator K) (k : K) : Prop :=
  ∃ n v, it.call mem n = .ok (k, v)

variable {X : Sst K} {r : Record K}

/-! ### What the scan reads -/

section Reads

variable {io : ScanIo} {cfg : SstManagerConfig} {part : Bytes → ℕ} {db : Database Bytes} {p : ℕ}
  {lower upper : Option Bytes} {X : Sst Bytes} {r : Record Bytes}

/-- The sources of a scan, each with what is stored there. -/
def scanReads (io : ScanIo) (cfg : SstManagerConfig) (db : Database Bytes) (p : ℕ)
    (lower upper : Option Bytes) : List (ScanSource Bytes × Sst Bytes) :=
  (((db.partitions p).levelList cfg).flatten.filterMap fun X =>
      (rangeStream io lower upper X).map fun s => (.stream s, X)) ++
    (.cursor (.make db.table 0 lower upper uint64Max db.seqNr),
        tableRun db.flushIteration db.table) ::
      (db.pendingFlushes.zipIdx 1).map fun q =>
        (.cursor (.make q.1.2 q.2 lower upper q.1.1 uint64Max), tableRun q.1.1 q.1.2)

variable {q : ScanSource Bytes × Sst Bytes}

theorem mem_scanReads :
    q ∈ scanReads io cfg db p lower upper ↔
      (q.2 ∈ ((db.partitions p).levelList cfg).flatten ∧
          ∃ s, rangeStream io lower upper q.2 = some s ∧ q.1 = .stream s) ∨
        q = (.cursor (.make db.table 0 lower upper uint64Max db.seqNr),
          tableRun db.flushIteration db.table) ∨
        ∃ x ∈ db.pendingFlushes.zipIdx 1,
          q = (.cursor (.make x.1.2 x.2 lower upper x.1.1 uint64Max), tableRun x.1.1 x.1.2) := by
  rw [scanReads, mem_append, mem_cons]
  refine or_congr ?_ (or_congr_right ?_)
  · rw [mem_filterMap]
    constructor
    · rintro ⟨X, hX, hmap⟩
      obtain ⟨s, hs, rfl⟩ := Option.map_eq_some_iff.mp hmap
      exact ⟨hX, s, hs, rfl⟩
    · rintro ⟨hX, s, hs, hq⟩
      exact ⟨q.2, hX, Option.map_eq_some_iff.mpr ⟨s, hs, Prod.ext hq.symm rfl⟩⟩
  · rw [mem_map]
    exact exists_congr fun x => and_congr_right fun _ => eq_comm

/-- What is stored at the sources: the SSTs with pages in the range, and all tables. -/
theorem map_snd_scanReads :
    (scanReads io cfg db p lower upper).map Prod.snd =
      (((db.partitions p).levelList cfg).flatten.filter fun X =>
          (rangeStream io lower upper X).isSome) ++
        tableRun db.flushIteration db.table ::
          db.pendingFlushes.map fun q => tableRun q.1 q.2 := by
  have hpending : ((db.pendingFlushes.zipIdx 1).map fun q => tableRun q.1.1 q.1.2) =
      db.pendingFlushes.map fun q => tableRun q.1 q.2 := by
    conv_rhs => rw [← zipIdx_map_fst 1 db.pendingFlushes, map_map]
    rfl
  rw [scanReads, map_append, map_cons, map_map, map_filterMap, ← filterMap_eq_filter]
  refine congrArg₂ _ (filterMap_congr fun X _ => ?_) (congrArg _ hpending)
  rw [Option.guard]
  rcases rangeStream io lower upper X with - | s <;> rfl

theorem Quiescent.scanReads_epochs (h : Quiescent cfg part db) :
    (scanReads io cfg db p lower upper).Pairwise fun q q' => q.2.epoch ≠ q'.2.epoch := by
  have hperm : (((db.partitions p).levelList cfg).flatten ++ tableRun db.flushIteration db.table ::
      db.pendingFlushes.map fun q => tableRun q.1 q.2).Perm (db.stored cfg p) := by
    refine perm_append_comm.trans (Perm.append_right _ ?_)
    exact (perm_append_singleton _ _).symm
  have hall := (hperm.pairwise_iff Ne.symm).mpr (h.epochs p)
  have hsub := hall.sublist ((filter_sublist
    (p := fun X => (rangeStream io lower upper X).isSome)).append_right _)
  rw [← map_snd_scanReads, pairwise_map] at hsub
  exact hsub

theorem mem_stored_of_mem_scanReads (hq : q ∈ scanReads io cfg db p lower upper) :
    q.2 ∈ db.stored cfg p := by
  have hmem : q.2 ∈ (scanReads io cfg db p lower upper).map Prod.snd := mem_map_of_mem hq
  rw [map_snd_scanReads, mem_append, mem_cons] at hmem
  rw [Database.stored, Database.unflushed, mem_append, mem_append, mem_singleton]
  rcases hmem with hsst | hcurr | hpending
  · exact .inr (mem_of_mem_filter hsst)
  · exact .inl (.inr hcurr)
  · exact .inl (.inl hpending)

/-- A cursor over the current table has the highest epoch there is, every other source its
own. -/
theorem Quiescent.source_epoch (h : Quiescent cfg part db)
    (hq : q ∈ scanReads io cfg db p lower upper) :
    q.1.epoch = q.2.epoch ∧ q.2.epoch < db.flushIteration ∨
      q.1.epoch = uint64Max ∧ q.2.epoch = db.flushIteration := by
  have hle := h.current p q.2 (mem_stored_of_mem_scanReads hq)
  obtain ⟨hunflushed, -, hssts⟩ := pairwise_append.mp (h.epochs p)
  obtain ⟨-, -, hpending⟩ := pairwise_append.mp hunflushed
  have hcurr : tableRun db.flushIteration db.table ∈ db.unflushed := by simp [Database.unflushed]
  rcases mem_scanReads.mp hq with ⟨hsst, s, hs, hsource⟩ | rfl | ⟨x, hx, rfl⟩
  · obtain ⟨range, -, rfl⟩ := Option.map_eq_some_iff.mp hs
    refine .inl ⟨by rw [hsource]; rfl, lt_of_le_of_ne hle ?_⟩
    exact (hssts _ hcurr q.2 hsst).symm
  · exact .inr ⟨rfl, rfl⟩
  · refine .inl ⟨rfl, lt_of_le_of_ne hle ?_⟩
    exact hpending _ (mem_map_of_mem (fst_mem_of_mem_zipIdx hx)) _ mem_cons_self

theorem Quiescent.source_epoch_le_iff (h : Quiescent cfg part db)
    {q' : ScanSource Bytes × Sst Bytes}
    (hq : q ∈ scanReads io cfg db p lower upper) (hq' : q' ∈ scanReads io cfg db p lower upper) :
    q.1.epoch ≤ q'.1.epoch ↔ q.2.epoch ≤ q'.2.epoch := by
  have hmax := h.flushIteration
  rcases h.source_epoch hq with ⟨he, hlt⟩ | ⟨he, heq⟩ <;>
    rcases h.source_epoch hq' with ⟨he', hlt'⟩ | ⟨he', heq'⟩ <;> rw [he, he'] <;> omega

theorem Quiescent.exists_scanReads (hio : io.Serves) (h : Quiescent cfg part db)
    (hread : db.SstsReadBack cfg) (hX : X ∈ db.stored cfg p) (hr : r ∈ X.entries)
    (hrange : InRange lower upper r.key) :
    ∃ s, (s, X) ∈ scanReads io cfg db p lower upper := by
  have hmem : X ∈ (scanReads io cfg db p lower upper).map Prod.snd := by
    rw [map_snd_scanReads, mem_append, mem_cons]
    rw [Database.stored, Database.unflushed, mem_append, mem_append, mem_singleton] at hX
    rcases hX with (hpending | hcurr) | hsst
    · exact .inr (.inr hpending)
    · exact .inr (.inl hcurr)
    · refine .inl (mem_filter.mpr ⟨hsst, ?_⟩)
      by_contra hnone
      have hfile := hio.file X (h.sorted p X hsst) (hread p X hsst)
      rw [Bool.not_eq_true, Option.isSome_eq_false_iff, Option.isNone_iff_eq_none, rangeStream,
        Option.map_eq_none_iff] at hnone
      exact SstPages.findRange_none hnone r (hfile ▸ hr) hrange
  obtain ⟨⟨s, X⟩, hmem', rfl⟩ := mem_map.mp hmem
  exact ⟨s, hmem'⟩

/-! ### What the sources hand out -/

theorem handsOut_stream (hio : io.Serves) (mem : Tables Bytes) (hs : X.Sorted) (hX : X.InFile)
    {s : SstStream Bytes} (hstream : rangeStream io lower upper X = some s) :
    ∃ ends l, (ScanSource.stream s).HandsOut mem ends l ∧ l.Pairwise (fun a b => a.key < b.key) ∧
      ∀ r, InRange lower upper r.key → (r ∈ l ↔ LastWriteIn [X] r) := by
  obtain ⟨range, hrange, rfl⟩ := Option.map_eq_some_iff.mp hstream
  have hfile := hio.file X hs hX
  have hsub := (io.file X).pagesBetween_sublist ((io.file X).startOffset range)
    ((io.file X).endOffset range)
  refine ⟨true, _, ⟨rfl, ?_, hio.chunks _⟩, (io.file X).sorted.sublist hsub.flatten, ?_⟩
  · exact hio.chunk_ne _ fun page hpage => (io.file X).page_ne page (hsub.subset hpage)
  · intro r hr
    rw [lastWriteIn_singleton]
    constructor
    · intro hmem
      have hmem' : r ∈ X.entries := hfile ▸ hsub.flatten.subset hmem
      refine ⟨hmem', fun r' hr' hkey => ?_⟩
      have hself := (lookup_eq_some_iff hs).mpr ⟨hmem', rfl⟩
      rw [Option.some.inj (((lookup_eq_some_iff hs).mpr ⟨hr', hkey⟩).symm.trans hself)]
    · rintro ⟨hmem, -⟩
      exact SstPages.mem_pagesBetween hrange (hfile ▸ hmem) hr

theorem handsOut_cursor (mem : Tables Bytes) {t : Skiplist Bytes} {table : ℕ} (hmem : mem table = t)
    (epoch epoch' : ℕ) {maxSeq : ℕ} (hvis : ∀ r ∈ (tableRun epoch' t).entries, r.stamp ≤ maxSeq) :
    ∃ ends l, (ScanSource.cursor (.make t table lower upper epoch maxSeq)).HandsOut mem ends l ∧
      l.Pairwise (fun a b => a.key < b.key) ∧
      ∀ r, InRange lower upper r.key → (r ∈ l ↔ LastWriteIn [tableRun epoch' t] r) := by
  obtain ⟨ends, es, hout, hsorted, hes⟩ := MemtableCursor.exists_handsOut_newest t table lower upper
    epoch (fun e he => hvis e.toRecord (mem_map_of_mem he))
  refine ⟨ends, es.map MemtableEntry.toRecord, ?_, pairwise_map.mpr hsorted, ?_⟩
  · show MemtableCursor.HandsOut (mem table) ends _ _
    rw [hmem]
    exact hout
  · intro r hrange
    rw [lastWriteIn_singleton]
    constructor
    · intro hr
      obtain ⟨e, he, rfl⟩ := mem_map.mp hr
      have hnewest := (hes e hrange).mp he
      refine ⟨mem_map_of_mem hnewest.mem, fun r' hr' hkey => ?_⟩
      obtain ⟨a, ha, rfl⟩ := mem_map.mp hr'
      exact hnewest.newest a ha hkey (hvis _ hr')
    · rintro ⟨hr, hnewest⟩
      obtain ⟨e, he, rfl⟩ := mem_map.mp hr
      refine mem_map_of_mem ((hes e hrange).mpr ⟨he, hvis _ hr, fun a ha hkey _ => ?_⟩)
      exact hnewest a.toRecord (mem_map_of_mem ha) hkey

theorem Quiescent.handsOut (hio : io.Serves) (h : Quiescent cfg part db)
    (hread : db.SstsReadBack cfg) (hq : q ∈ scanReads io cfg db p lower upper) :
    ∃ ends l, q.1.HandsOut db.acquireSnapshot.tables ends l ∧
      l.Pairwise (fun a b => a.key < b.key) ∧
      ∀ r, InRange lower upper r.key → (r ∈ l ↔ LastWriteIn [q.2] r) := by
  rcases mem_scanReads.mp hq with ⟨hsst, s, hs, hsource⟩ | rfl | ⟨⟨x, i⟩, hx, rfl⟩
  · rw [hsource]
    exact handsOut_stream hio _ (h.sorted p q.2 hsst) (hread p q.2 hsst) hs
  · exact handsOut_cursor (t := db.table) _ rfl _ _
      (h.stamps _ (mem_append_right _ mem_cons_self))
  · have hmem : x ∈ db.pendingFlushes := fst_mem_of_mem_zipIdx hx
    obtain ⟨hi, hget⟩ := mk_mem_zipIdx_iff_le_and_getElem?_sub.mp hx
    refine handsOut_cursor _ ?_ _ _ ?_
    · obtain ⟨j, rfl⟩ : ∃ j, i = j + 1 := ⟨i - 1, by omega⟩
      rw [Nat.add_sub_cancel] at hget
      simp [MemtableSnapshot.tables, Database.acquireSnapshot, hget]
    · intro r hr
      refine (h.stamps (tableRun x.1 x.2) ?_ r hr).trans h.seqNr
      exact mem_append_left _ (mem_map_of_mem hmem)

theorem Quiescent.sources_makeNew (h : Quiescent cfg part db) :
    (RangeIterator.makeNew io db.acquireSnapshot ((db.partitions p).levelList cfg) lower
      upper).sources = (scanReads io cfg db p lower upper).map Prod.fst := by
  obtain ⟨-, -, hssts⟩ := pairwise_append.mp (h.epochs p)
  have hkept : (db.pendingFlushes.zipIdx 1).filter (fun q =>
      ∀ s ∈ ((db.partitions p).levelList cfg).flatten.filterMap (rangeStream io lower upper),
        s.index.epoch ≠ q.1.1) = db.pendingFlushes.zipIdx 1 := by
    rw [filter_eq_self]
    intro q hq
    rw [decide_eq_true_eq]
    intro s hs
    obtain ⟨X, hX, hstream⟩ := mem_filterMap.mp hs
    obtain ⟨range, -, rfl⟩ := Option.map_eq_some_iff.mp hstream
    refine (hssts (tableRun q.1.1 q.1.2) (mem_append_left _ ?_) X hX).symm
    exact mem_map_of_mem (fst_mem_of_mem_zipIdx hq)
  rw [RangeIterator.makeNew]
  show _ ++ _ :: map _ (filter _ (zipIdx db.pendingFlushes 1)) = _
  rw [hkept, scanReads, map_append, map_cons, map_map, map_filterMap, map_filterMap]
  refine congrArg₂ _ (filterMap_congr fun X _ => ?_) rfl
  rw [Option.map_map]
  rfl

end Reads

/-! ### What the scan returns -/

section Emits

variable {io : ScanIo} {cfg : SstManagerConfig} {part : Bytes → ℕ} {db : Database Bytes} {p : ℕ}
  {lower upper : Option Bytes} {k : Bytes}

theorem RangeIterator.exists_call_iff {mem : Tables K} {infos : List SourceInfo}
    {srcs : List (ScanSource K × List (Record K))} {lower upper : Option K} (h : SortedSources srcs)
    (hsrcs : Described mem infos srcs) {kv : K × Bytes} :
    (∃ n, (fresh srcs lower upper).call mem n = .ok kv) ↔
      kv ∈ (newest srcs).filterMap (emitted lower upper) := by
  by_cases hne : ∃ p ∈ srcs, p.2 ≠ []
  · have hlive := live_init h hsrcs hne lower upper
    rw [mem_iff_getElem?]
    refine exists_congr fun n => ?_
    rw [call_fresh, hlive.call_eq n, resultAt]
    rcases ((newest srcs).filterMap (emitted lower upper))[n]? with - | kv' <;> simp
  · have hnil : ∀ p ∈ srcs, p.2 = [] := fun p hp => by_contra fun hp' => hne ⟨p, hp, hp'⟩
    refine iff_of_false ?_ ?_
    · rintro ⟨n, hcall⟩
      cases (call_of_empty hsrcs hnil n).symm.trans hcall
    · rw [newest_eq_nil_iff.mpr hnil]
      exact not_mem_nil

theorem isTombstone_eq_false_iff {value : Bytes} (h : Decodable value) :
    isTombstone value = false ↔
      ∃ v, valueFromSpan value = .ok (.bytes v) ∨ valueFromSpan value = .ok (.valuePtr v) := by
  rw [← Bool.not_eq_true, isTombstone_iff h]
  obtain ⟨v, hv⟩ := h
  rw [hv]
  rcases v with raw | data | - <;> simp

theorem Quiescent.emits_reads_iff (hio : io.Serves) (h : Quiescent cfg part db)
    (hread : db.SstsReadBack cfg) :
    (RangeIterator.makeNew io db.acquireSnapshot ((db.partitions p).levelList cfg) lower
        upper).Emits db.acquireSnapshot.tables k ↔
      InRange lower upper k ∧ ∃ q ∈ scanReads io cfg db p lower upper, ∃ r,
        LastWriteIn [q.2] r ∧ r.key = k ∧ isTombstone r.value = false ∧
          ∀ q' ∈ scanReads io cfg db p lower upper, ∀ r' ∈ q'.2.entries, r'.key = k →
            q'.2.epoch ≤ q.2.epoch := by
  have hreads : ∀ q ∈ scanReads io cfg db p lower upper, ∃ ends l,
      q.1.HandsOut db.acquireSnapshot.tables ends l ∧ l.Pairwise (fun a b => a.key < b.key) ∧
        ∀ r, InRange lower upper r.key → (r ∈ l ↔ LastWriteIn [q.2] r) :=
    fun q hq => h.handsOut hio hread hq
  choose! ends l hout hsorted hlast using hreads
  obtain ⟨srcs, hsrcs⟩ : ∃ srcs : List (ScanSource Bytes × List (Record Bytes)), srcs =
      (scanReads io cfg db p lower upper).map fun q => (q.1, l q) := ⟨_, rfl⟩
  have hfresh : RangeIterator.makeNew io db.acquireSnapshot ((db.partitions p).levelList cfg) lower
      upper = .fresh srcs lower upper := by
    have hsources : (RangeIterator.makeNew io db.acquireSnapshot
        ((db.partitions p).levelList cfg) lower upper).sources = srcs.map Prod.fst := by
      rw [h.sources_makeNew, hsrcs, map_map]
      rfl
    show ({ sources := (RangeIterator.makeNew io db.acquireSnapshot
      ((db.partitions p).levelList cfg) lower upper).sources, lower, upper } : RangeIterator Bytes) = _
    rw [hsources]
    rfl
  have hdescribed : RangeIterator.Described db.acquireSnapshot.tables
      ((scanReads io cfg db p lower upper).map fun q => ⟨ends q, q.1.epoch⟩) srcs := by
    refine ⟨by rw [hsrcs, length_map, length_map], fun i s hs => ?_⟩
    rw [hsrcs, getElem?_map] at hs
    obtain ⟨q, hq, rfl⟩ := Option.map_eq_some_iff.mp hs
    refine ⟨⟨ends q, q.1.epoch⟩, by rw [getElem?_map, hq]; rfl, ?_, rfl⟩
    exact hout q (mem_of_getElem? hq)
  have hsortedSources : RangeIterator.SortedSources srcs := by
    rw [hsrcs]
    constructor
    · intro s hs
      obtain ⟨q, hq, rfl⟩ := mem_map.mp hs
      exact hsorted q hq
    · rw [pairwise_map]
      refine h.scanReads_epochs.imp_of_mem fun {q q'} hq hq' hne heq => hne ?_
      exact le_antisymm ((h.source_epoch_le_iff hq hq').mp heq.le)
        ((h.source_epoch_le_iff hq' hq).mp heq.ge)
  have hdecodable : ∀ q ∈ scanReads io cfg db p lower upper, ∀ r, LastWriteIn [q.2] r →
      Decodable r.value := fun q hq r hr =>
    h.decodable p q.2 (mem_stored_of_mem_scanReads hq) r (lastWriteIn_singleton.mp hr).1
  rw [hfresh]
  constructor
  · rintro ⟨n, v, hcall⟩
    have hemitted := (RangeIterator.exists_call_iff hsortedSources hdescribed).mp ⟨n, hcall⟩
    obtain ⟨hl, hu, s, hs, r, hr, rfl, hmax, hv⟩ := hsortedSources.mem_emitted.mp hemitted
    rw [hsrcs] at hs hmax
    obtain ⟨q, hq, rfl⟩ := mem_map.mp hs
    have hwrite := (hlast q hq r ⟨hl, hu⟩).mp hr
    refine ⟨⟨hl, hu⟩, q, hq, r, hwrite, rfl,
      (isTombstone_eq_false_iff (hdecodable q hq r hwrite)).mpr ⟨v, hv⟩, ?_⟩
    intro q' hq' r' hr' hkey
    obtain ⟨r'', hwrite'', hkey''⟩ := exists_lastWriteIn (mem_singleton_self q'.2) hr'
    have hr'' := (hlast q' hq' r'' (by rw [hkey'', hkey]; exact ⟨hl, hu⟩)).mpr hwrite''
    exact (h.source_epoch_le_iff hq' hq).mp
      (hmax (q'.1, l q') (mem_map_of_mem hq') r'' hr'' (hkey''.trans hkey))
  · rintro ⟨hrange, q, hq, r, hwrite, rfl, hlive, hmax⟩
    obtain ⟨v, hv⟩ := (isTombstone_eq_false_iff (hdecodable q hq r hwrite)).mp hlive
    have hemitted : (r.key, v) ∈ (RangeIterator.newest srcs).filterMap
        (RangeIterator.emitted lower upper) := by
      rw [hsortedSources.mem_emitted, hsrcs]
      refine ⟨hrange.1, hrange.2, _, mem_map_of_mem hq, r, (hlast q hq r hrange).mpr hwrite,
        rfl, ?_, hv⟩
      intro s hs r' hr' hkey
      obtain ⟨q', hq', rfl⟩ := mem_map.mp hs
      have hwrite' := (hlast q' hq' r' (hkey ▸ hrange)).mp hr'
      exact (h.source_epoch_le_iff hq' hq).mpr
        (hmax q' hq' r' (lastWriteIn_singleton.mp hwrite').1 hkey)
    obtain ⟨n, hcall⟩ := (RangeIterator.exists_call_iff hsortedSources hdescribed).mpr hemitted
    exact ⟨n, v, hcall⟩

/-- **What a scan of partition `p` returns**: the keys within the bounds that are live in
what is stored for the partition, tables and SSTs. -/
theorem Quiescent.emits_iff (hio : io.Serves) (h : Quiescent cfg part db)
    (hread : db.SstsReadBack cfg) :
    (RangeIterator.makeNew io db.acquireSnapshot ((db.partitions p).levelList cfg) lower
        upper).Emits db.acquireSnapshot.tables k ↔
      InRange lower upper k ∧ LiveIn (db.stored cfg p) k := by
  rw [h.emits_reads_iff hio hread]
  refine and_congr_right fun hrange => ?_
  constructor
  · rintro ⟨q, hq, r, hr, hkey, hlive, hmax⟩
    obtain ⟨hmem, hnewest⟩ := lastWriteIn_singleton.mp hr
    have hstored := mem_stored_of_mem_scanReads hq
    refine ⟨r, ⟨⟨q.2, hstored, hmem⟩, fun Y hY r' hr' hkey' => ?_⟩, hkey, hlive⟩
    obtain ⟨s, hs⟩ := h.exists_scanReads hio hread hY hr' (hkey'.trans hkey ▸ hrange)
    rcases (hmax _ hs r' hr' (hkey'.trans hkey)).lt_or_eq with hlt | heq
    · exact (h.recency p Y hY q.2 hstored hlt r' hr' r hmem hkey').le
    · -- the epoch tells what is stored with it
      have hnodup : ((db.stored cfg p).map Sst.epoch).Nodup := pairwise_map.mpr (h.epochs p)
      obtain rfl : Y = q.2 := inj_on_of_nodup_map hnodup hY hstored heq
      exact hnewest r' hr' hkey'
  · rintro ⟨r, ⟨⟨X, hX, hr⟩, hnewest⟩, rfl, hlive⟩
    obtain ⟨s, hs⟩ := h.exists_scanReads hio hread hX hr hrange
    refine ⟨_, hs, r, lastWriteIn_singleton.mpr ⟨hr, hnewest X hX⟩, rfl, hlive, ?_⟩
    intro q' hq' r' hr' hkey
    have hstored := mem_stored_of_mem_scanReads hq'
    by_contra hlt
    have hnewer := h.recency p X hX q'.2 hstored (not_le.mp hlt) r hr r' hr' hkey.symm
    exact absurd (hnewest q'.2 hstored r' hr' hkey) hnewer.not_ge

theorem Quiescent.liveIn_other (h : Quiescent cfg part db) (hk : part k ≠ p) :
    LiveIn (db.stored cfg p) k ↔ LiveIn db.unflushed k := by
  refine liveIn_append_iff fun X hX r hr hkey => hk ?_
  rw [← hkey]
  exact h.keys _ X hX r hr

end Emits

/-! ### The result -/

/-- One entry to a page, one page to a read. -/
def singlePages : ScanIo where
  file X :=
    if h : X.Sorted ∧ X.entries.length * pageSizeInBytes < 2 ^ 64 then
      { pages := X.entries.map ([·])
        superIndex := none
        indexOffset := 0
        metaIndexOffset := X.entries.length * pageSizeInBytes
        page_ne := by simp
        sorted := by
          rw [← flatMap_def, flatMap_singleton']
          exact h.1
        super := .inl rfl
        aligned := Nat.zero_mod _
        offsets := by rw [length_map, Nat.zero_add]
        fits := h.2 }
    else ⟨[], none, 0, 0, nofun, .nil, .inl rfl, Nat.zero_mod _, rfl, by decide⟩
  chunks pages := pages.map (⟨·, pageSizeInBytes⟩)

theorem singlePages_serves : singlePages.Serves where
  file X hs hX := by
    have hfile : singlePages.file X = _ := dif_pos ⟨hs, hX.size⟩
    rw [hfile, ← flatMap_def, flatMap_singleton']
  chunks pages := by simp [singlePages, flatMap_map, flatMap_id']
  chunk_ne pages hne c hc := by
    obtain ⟨page, hpage, rfl⟩ := mem_map.mp hc
    exact hne page hpage

/-- Key `[200, 1]` is in an SST. -/
def flushedDatabase : Database Bytes :=
  (Run.exec (databaseStep ⟨2, 2, 4⟩ (findMatchingPartitionForKey 1)) {}
    [.put [200, 1] [2], .switch 0, .flush]).getD {}

/-- Key `[5, 1]` is in memory. -/
def splitDatabase : Database Bytes := flushedDatabase.insert [5, 1] [1, 1]

theorem splitDatabase_quiescent :
    Quiescent ⟨2, 2, 4⟩ (findMatchingPartitionForKey 1) splitDatabase :=
  quiescent_of_run ⟨by decide, by decide, by decide⟩
    [.put [200, 1] [2], .switch 0, .flush, .put [5, 1] [1]] (by decide) rfl (by decide) (by decide)

theorem splitDatabase_readBack : splitDatabase.SstsReadBack ⟨2, 2, 4⟩ := by
  obtain ⟨db, hflush, hssts, htables⟩ : ∃ db : Database Bytes,
      databaseStep ⟨2, 2, 4⟩ (findMatchingPartitionForKey 1) db .flush = some flushedDatabase ∧
        db.SstsReadBack ⟨2, 2, 4⟩ ∧ db.TablesReadBack 1 :=
    ⟨(({} : Database Bytes).insert [200, 1] [1, 2]).switch 0, rfl,
      fun p X hX => (by cases hX), by decide +kernel⟩
  exact (htables.flushStep hssts rfl hflush).2

end HedgeDB
