/-
HedgeDB/RangeScan.lean

What a range scan over fixed tables returns.

A source yields a list of records; the iterator merges what its sources yield.
`upcoming` is what the deduplicator will still make of the heap: one entry per
key, in key order.  `nextInner_spec` walks along it until an entry is emitted,
the heap is empty or the upper bound is passed, `next_spec` adds the drain of
the last entry, and `call_eq` says what every call returns.
`scan_merges_sources` reads this off for the sources themselves.
-/
import HedgeDB.RangeIterator

namespace HedgeDB

open Function

open List hiding Cursor
open KeyedList KWayMerge

variable {K : Type*} [LinearOrder K]

/-! ### What a source yields -/

/-- A cursor over the table `t` hands out `l` and then is at its end. -/
inductive MemtableCursor.Yields (t : Skiplist K) : MemtableCursor K → List (Record K) → Prop
  | eof {c : MemtableCursor K} (h : c.isEof = true) : Yields t c []
  | entry {c : MemtableCursor K} {e : MemtableEntry K} {l : List (Record K)}
      (h : c.isEof = false) (hit : c.it = some e) (hrest : Yields t (c.popFront t) l) :
      Yields t c (e.toRecord :: l)

/-- A cursor that ran past its end and behind the last node: the loops of the source read
the node that `_it` is at, and here there is none. -/
def MemtableCursor.Lost (c : MemtableCursor K) : Prop := c.it = none ∧ c.endIt ≠ none

instance (c : MemtableCursor K) : Decidable c.Lost := inferInstanceAs (Decidable (_ ∧ _))

/-- A cursor over the table `t` hands out `l` and then is at its end, or else lost. -/
inductive MemtableCursor.HandsOut (t : Skiplist K) :
    Bool → MemtableCursor K → List (Record K) → Prop
  | eof {c : MemtableCursor K} (h : c.isEof = true) : HandsOut t true c []
  | lost {c : MemtableCursor K} (h : c.Lost) : HandsOut t false c []
  | entry {ends : Bool} {c : MemtableCursor K} {e : MemtableEntry K} {l : List (Record K)}
      (h : c.isEof = false) (hit : c.it = some e) (hrest : HandsOut t ends (c.popFront t) l) :
      HandsOut t ends c (e.toRecord :: l)

variable {c : MemtableCursor K} {l : List (Record K)}

theorem MemtableCursor.handsOut_true_iff {t : Skiplist K} : c.HandsOut t true l ↔ c.Yields t l := by
  constructor
  · intro h
    generalize hends : true = ends at h
    induction h with
    | eof h => exact .eof h
    | lost h => cases hends
    | entry h hit _ ih => exact .entry h hit (ih hends)
  · intro h
    induction h with
    | eof h => exact .eof h
    | entry h hit _ ih => exact .entry h hit ih

/-- A source hands out `l` and then is at its end. -/
def ScanSource.Yields (mem : Tables K) : ScanSource K → List (Record K) → Prop
  | .stream s, l => s.NoEmptyChunk ∧ s.remaining = l
  | .cursor c, l => c.Yields (mem c.table) l

/-- A source hands out `l` and then is at its end, or else lost. -/
def ScanSource.HandsOut (mem : Tables K) (ends : Bool) : ScanSource K → List (Record K) → Prop
  | .stream s, l => ends = true ∧ s.NoEmptyChunk ∧ s.remaining = l
  | .cursor c, l => c.HandsOut (mem c.table) ends l

variable {s : ScanSource K}

theorem ScanSource.handsOut_true_iff {mem : Tables K} : s.HandsOut mem true l ↔ s.Yields mem l := by
  cases s with
  | stream s => exact and_iff_right rfl
  | cursor c => exact MemtableCursor.handsOut_true_iff

section Cursors

variable {t : Skiplist K}

def nodesLeft (t : Skiplist K) : Option (MemtableEntry K) → ℕ
  | none => 0
  | some e => (t.entries.filter fun a => memtableCmp e a).length + 1

theorem nodesLeft_next (t : Skiplist K) (e : MemtableEntry K) :
    nodesLeft t (t.next e) < nodesLeft t (some e) := by
  rcases h : t.next e with - | a
  · exact Nat.succ_pos _
  · have ha := find?_some h
    have hmem := mem_of_find?_eq_some h
    -- what is behind `a` is behind `e`, and `a` itself is not behind `a`
    have hlt : (t.entries.filter fun b => memtableCmp a b).length <
        (t.entries.filter fun b => memtableCmp e b).length := by
      have hsub : (t.entries.filter fun b => memtableCmp a b) =
          (t.entries.filter fun b => memtableCmp e b).filter fun b => memtableCmp a b := by
        rw [filter_filter]
        refine filter_congr fun b _ => ?_
        by_cases hb : memtableCmp a b = true
        · rw [hb, memtableCmp_trans ha hb]
          rfl
        · rw [Bool.not_eq_true] at hb
          rw [hb]
          rfl
      rw [hsub]
      refine length_filter_lt_length_iff_exists.mpr ⟨a, ?_, ?_⟩
      · exact mem_filter.mpr ⟨hmem, ha⟩
      · rw [memtableCmp_iff]
        simp
    exact Nat.succ_lt_succ hlt

theorem nodesLeft_skipWhile (endIt : Option (MemtableEntry K)) (p : MemtableEntry K → Bool)
    (fuel : ℕ) (it : Option (MemtableEntry K)) :
    nodesLeft t (skipWhile t endIt p fuel it) ≤ nodesLeft t it := by
  induction fuel generalizing it with
  | zero => exact le_rfl
  | succ fuel ih =>
    rcases it with - | e
    · exact le_rfl
    · rw [skipWhile]
      split
      · exact (ih _).trans (nodesLeft_next t e).le
      · exact le_rfl

theorem nodesLeft_popFront {e : MemtableEntry K} (hit : c.it = some e) :
    nodesLeft t (c.popFront t).it < nodesLeft t (some e) := by
  simp only [MemtableCursor.popFront, hit, MemtableCursor.skipDuplicateKeys,
    MemtableCursor.skipInvisible]
  exact ((nodesLeft_skipWhile _ _ _ _).trans (nodesLeft_skipWhile _ _ _ _)).trans_lt
    (nodesLeft_next t e)

theorem MemtableCursor.HandsOut.length_le {ends : Bool} (h : c.HandsOut t ends l) :
    l.length ≤ nodesLeft t c.it := by
  induction h with
  | eof h => exact Nat.zero_le _
  | lost h => exact Nat.zero_le _
  | entry h hit hrest ih =>
    rw [hit]
    exact ih.trans_lt (nodesLeft_popFront hit)

@[simp] theorem MemtableCursor.popFront_epoch (c : MemtableCursor K) :
    (c.popFront t).epoch = c.epoch := by
  rcases h : c.it with - | e <;> simp [popFront, h, skipDuplicateKeys, skipInvisible]

@[simp] theorem MemtableCursor.popFront_table (c : MemtableCursor K) :
    (c.popFront t).table = c.table := by
  rcases h : c.it with - | e <;> simp [popFront, h, skipDuplicateKeys, skipInvisible]

end Cursors

variable {rs : List (Record K)} {r : Record K}

namespace ScanSource

variable {mem : Tables K} {ends : Bool} {s : ScanSource K} {l : List (Record K)}

theorem HandsOut.length_le (h : s.HandsOut mem ends l) :
    l.length ≤ RangeIterator.sourceBound mem s := by
  cases s with
  | stream s => exact (congrArg length h.2.2).ge
  | cursor c =>
    have hlen : l.length ≤ nodesLeft (mem c.table) c.it := MemtableCursor.HandsOut.length_le h
    refine hlen.trans ?_
    rcases c.it with - | e
    · exact Nat.zero_le _
    · exact Nat.succ_le_succ (length_filter_le _ _)

theorem HandsOut.refresh (h : s.HandsOut mem ends l) : s.refresh.HandsOut mem ends l := by
  cases s with
  | stream s => exact ⟨h.1, h.2.1.refresh, (SstStream.refresh_remaining s).trans h.2.2⟩
  | cursor c => exact h

omit [LinearOrder K] in
@[simp] theorem refresh_epoch (s : ScanSource K) : s.refresh.epoch = s.epoch := by
  cases s with
  | stream s => exact congrArg Sst.epoch (SstStream.refresh_index s)
  | cursor c => rfl

theorem HandsOut.nil (h : s.HandsOut mem ends []) :
    s.isEof = true ∨ s.bufferEmpty = false ∧ s.popEntry mem = none := by
  cases s with
  | stream s => exact .inl ((SstStream.isEof_iff h.2.1).mpr h.2.2)
  | cursor c =>
    cases h with
    | eof h => exact .inl h
    | lost h =>
      refine .inr ⟨?_, ?_⟩
      · simp [bufferEmpty, MemtableCursor.isEof, h.1, h.2.symm]
      · simp [ScanSource.popEntry, h.1]

theorem HandsOut.isEof_cons (h : s.HandsOut mem ends (r :: rs)) : s.isEof = false := by
  cases s with
  | stream s =>
    rw [← Bool.not_eq_true]
    exact fun heof => absurd (h.2.2.symm.trans ((SstStream.isEof_iff h.2.1).mp heof)) nofun
  | cursor c =>
    cases h with
    | entry h hit hrest => exact h

theorem HandsOut.popEntry (h : s.HandsOut mem ends (r :: rs)) :
    ∃ s', (if s.bufferEmpty then s.refresh else s).popEntry mem = some (⟨r, s.epoch⟩, s') ∧
      s'.HandsOut mem ends rs ∧ s'.epoch = s.epoch := by
  cases s with
  | stream s =>
    obtain ⟨hends, h⟩ := h
    obtain ⟨s', hs', hne, hrem, hepoch, hb⟩ : ∃ s' : SstStream K,
        (if s.bufferEmpty then (stream s).refresh else stream s) = stream s' ∧
          s'.NoEmptyChunk ∧ s'.remaining = r :: rs ∧ s'.index.epoch = s.index.epoch ∧
          s'.bufferEmpty = false := by
      by_cases hb : s.bufferEmpty = true
      · refine ⟨s.refresh, by rw [if_pos hb]; rfl, h.1.refresh,
          (SstStream.refresh_remaining s).trans h.2,
          congrArg Sst.epoch (SstStream.refresh_index s), ?_⟩
        -- there is a chunk to read: the stream is not at its end
        have heof : s.isEof = false := by
          rw [← Bool.not_eq_true, SstStream.isEof_iff h.1, h.2]
          exact cons_ne_nil _ _
        rcases er : s.reader with - | ⟨chunk, rest⟩
        · simp [SstStream.isEof, er, hb] at heof
        · simp [SstStream.refresh, er, SstStream.bufferEmpty]
      · exact ⟨s, if_neg hb, h.1, h.2, rfl, by simpa using hb⟩
    obtain ⟨r', rs', hrr, hfront, hpop, hpop'⟩ := SstStream.front_popFront hne hb
    obtain ⟨rfl, rfl⟩ := cons.inj (hrem.symm.trans hrr)
    refine ⟨stream s'.popFront, ?_, ⟨hends, hpop', hpop⟩, ?_⟩
    · show (if s.bufferEmpty then (stream s).refresh else stream s).popEntry mem = _
      rw [hs']
      simp [ScanSource.popEntry, hfront, hepoch, epoch]
    · exact (congrArg Sst.epoch (SstStream.popFront_index s')).trans hepoch
  | cursor c =>
    cases h with
    | @entry _ _ e _ h hit hrest =>
      refine ⟨cursor (c.popFront (mem c.table)), ?_, ?_, MemtableCursor.popFront_epoch c⟩
      · simp [bufferEmpty, h, ScanSource.popEntry, hit, epoch]
      · simpa [HandsOut] using hrest

end ScanSource

/-! ### Filling the heap -/

variable {rest : List (HeapSlot K)} {i : ℕ} {slot : HeapSlot K}

namespace RangeIterator

variable {mem : Tables K} {infos : List SourceInfo} {it : RangeIterator K} {tails : ℕ → List (Record K)}

/-- What a source keeps: whether it ends, and its epoch. -/
structure SourceInfo where
  ends : Bool
  epoch : ℕ

/-- `tails` is what the sources still hand out; the heap slots belong to different
sources and carry their epochs. -/
structure Filled (mem : Tables K) (infos : List SourceInfo) (tails : ℕ → List (Record K))
    (it : RangeIterator K) : Prop where
  yields : ∀ (i : ℕ) (s : ScanSource K), it.sources[i]? = some s → ∃ info, infos[i]? = some info ∧
    s.HandsOut mem info.ends (tails i) ∧ s.epoch = info.epoch
  epochs : ∀ slot ∈ it.heap, ∃ s, it.sources[slot.source]? = some s ∧ s.epoch = slot.entry.epoch
  distinct : it.heap.Pairwise fun a b => a.source ≠ b.source
  length : it.sources.length = infos.length

/-- Up to number `n`, a source that has something left has an entry in the heap. -/
def Topped (tails : ℕ → List (Record K)) (n : ℕ) (it : RangeIterator K) : Prop :=
  ∀ i < n, tails i ≠ [] → ∃ slot ∈ it.heap, slot.source = i

/-- A heap slot as a cursor over what its source still yields. -/
def slotCursor (tails : ℕ → List (Record K)) (slot : HeapSlot K) : Cursor (Record K) :=
  ⟨slot.entry.epoch, slot.entry.record, tails slot.source⟩

theorem fill_nil (hs : it.sources[i]? = some s) {b : Bool} (hy : s.HandsOut mem b []) :
    it.fill mem i = it := by
  obtain ⟨hi, rfl⟩ := List.getElem?_eq_some_iff.mp hs
  rcases hy.nil with heof | ⟨hempty, hpop⟩
  · simp [fill, heof, hi]
  · simp [fill, hempty, hpop, hi]

/-- Filling from a source that has a record left moves this record, and nothing
else, into the heap. -/
theorem fill_cons (it : RangeIterator K) {b : Bool} (hs : it.sources[i]? = some s)
    (hy : s.HandsOut mem b (r :: rs)) :
    ∃ s', s'.HandsOut mem b rs ∧ s'.epoch = s.epoch ∧
      it.fill mem i =
        { it with
          sources := it.sources.set i s'
          heap := it.heap ++ [⟨⟨r, s.epoch⟩, i⟩] } := by
  obtain ⟨s', hpop, hy', hepoch⟩ := hy.popEntry
  refine ⟨s', hy', hepoch, ?_⟩
  simp only [fill, hs, hy.isEof_cons, Bool.false_eq_true, if_false, hpop]

theorem Filled.set (h : Filled mem infos tails it) {s' : ScanSource K} {info : SourceInfo}
    (hs : it.sources[i]? = some s) (hinfo : infos[i]? = some info) (hinfo' : s.epoch = info.epoch)
    (hy : s'.HandsOut mem info.ends rs) (hepoch : s'.epoch = s.epoch)
    (hnew : ∀ slot ∈ it.heap, slot.source ≠ i) :
    Filled mem infos (Function.update tails i rs)
      { it with
        sources := it.sources.set i s'
        heap := it.heap ++ [⟨⟨r, s.epoch⟩, i⟩] } := by
  have hlt : i < it.sources.length := (List.getElem?_eq_some_iff.mp hs).1
  refine ⟨?_, ?_, ?_, (length_set ..).trans h.length⟩
  · intro j u hu
    by_cases hij : i = j
    · subst hij
      rw [List.getElem?_set_self hlt] at hu
      obtain rfl := Option.some.inj hu
      rw [update_self]
      exact ⟨info, hinfo, hy, hepoch.trans hinfo'⟩
    · rw [List.getElem?_set_ne hij] at hu
      rw [update_of_ne (Ne.symm hij)]
      exact h.yields j u hu
  · intro slot hslot
    rcases mem_append.mp hslot with hold | hnew'
    · obtain ⟨u, hu, he⟩ := h.epochs slot hold
      exact ⟨u, by rwa [List.getElem?_set_ne (hnew slot hold).symm], he⟩
    · obtain rfl := mem_singleton.mp hnew'
      exact ⟨s', List.getElem?_set_self hlt, hepoch⟩
  · refine pairwise_append.mpr ⟨h.distinct, pairwise_singleton _ _, ?_⟩
    intro a ha b hb
    obtain rfl := mem_singleton.mp hb
    exact hnew a ha

omit [LinearOrder K] in
theorem map_slotCursor_update {heap : List (HeapSlot K)} (hnew : ∀ slot ∈ heap, slot.source ≠ i) :
    heap.map (slotCursor (update tails i rs)) = heap.map (slotCursor tails) :=
  map_congr_left fun slot hslot => by
    rw [slotCursor, slotCursor, update_of_ne (hnew slot hslot)]

/-- What filling the heap leaves alone. -/
structure SameScan (it it' : RangeIterator K) : Prop where
  lower : it'.lower = it.lower
  upper : it'.upper = it.upper
  dedup : it'.dedup = it.dedup
  initialized : it'.initialized = it.initialized
  exhausted : it'.exhausted = it.exhausted

theorem fill_popped (it : RangeIterator K)
    (h : Filled mem infos tails { it with heap := slot :: rest })
    (htop : ∀ n, Topped tails n { it with heap := slot :: rest }) :
    ∃ tails' it', ({ it with heap := rest }).fill mem slot.source = it' ∧
      Filled mem infos tails' it' ∧ (∀ n, Topped tails' n it') ∧ SameScan it it' ∧
      it'.heap.map (slotCursor tails') =
        pushBack (slotCursor tails slot) (rest.map (slotCursor tails)) := by
  obtain ⟨hne, hrest⟩ := pairwise_cons.mp h.distinct
  have hepochs := fun s hs => h.epochs s (mem_cons_of_mem slot hs)
  obtain ⟨s, hs, hepoch⟩ := h.epochs slot mem_cons_self
  obtain ⟨info, hinfo, hy, hinfo'⟩ := h.yields _ s hs
  have hpopped : Filled mem infos tails { it with heap := rest } :=
    ⟨h.yields, hepochs, hrest, h.length⟩
  have hnew : ∀ a ∈ rest, a.source ≠ slot.source := fun a ha => (hne a ha).symm
  -- the other sources keep their slots
  have hold : ∀ i, i ≠ slot.source → tails i ≠ [] → ∃ a ∈ rest, a.source = i := by
    intro i hi htail
    obtain ⟨a, ha, hai⟩ := htop (i + 1) i i.lt_succ_self htail
    rcases mem_cons.mp ha with rfl | ha'
    · exact absurd hai.symm hi
    · exact ⟨a, ha', hai⟩
  rcases ht : tails slot.source with - | ⟨r, rs⟩
  · refine ⟨tails, _, fill_nil hs (ht ▸ hy), hpopped, ?_, ⟨rfl, rfl, rfl, rfl, rfl⟩, ?_⟩
    · intro n i _ htail
      exact hold i (fun hi => htail (hi ▸ ht)) htail
    · simp [pushBack, slotCursor, ht]
  · obtain ⟨s', hy', hepoch', hfill⟩ := fill_cons { it with heap := rest } hs (ht ▸ hy)
    refine ⟨update tails slot.source rs, _, hfill, hpopped.set hs hinfo hinfo' hy' hepoch' hnew, ?_,
      ⟨rfl, rfl, rfl, rfl, rfl⟩, ?_⟩
    · intro n i _ htail
      by_cases hi : i = slot.source
      · exact ⟨_, mem_append_right _ mem_cons_self, hi.symm⟩
      · rw [update_of_ne hi] at htail
        obtain ⟨a, ha, hai⟩ := hold i hi htail
        exact ⟨a, mem_append_left _ ha, hai⟩
    · rw [map_append, map_slotCursor_update hnew]
      simp [pushBack, slotCursor, ht, hepoch]

/-- What a source yields, read as an SST of its epoch: the merge looks at
nothing else. -/
def asSst (p : ScanSource K × List (Record K)) : Sst K :=
  { id := 0, indexId := 0, epoch := p.1.epoch, upperBound := 0, maxSeqNr := 0, entries := p.2 }

end RangeIterator

/-! ### What an entry is returned as -/

namespace RangeIterator

variable {mem : Tables K} {infos : List SourceInfo} {it : RangeIterator K} {tails : ℕ → List (Record K)}

/-- The pair an entry is returned as, unless it is skipped or out of range. -/
def emitted (lower upper : Option K) (item : MergeEntry K) : Option (K × Bytes) :=
  if lower.any (item.key < ·) || upper.any (· < item.key) then none
  else
    match valueFromSpan item.record.value with
    | .error _ => none
    | .ok value => value.payload.map (item.key, ·)

variable {item : MergeEntry K}

theorem emitted_of_above {lower upper : Option K} (h : upper.any (· < item.key) = true) :
    emitted lower upper item = none := by
  simp [emitted, h]

/-- `_emit` ends the scan at this entry. -/
def endsScan (lower upper : Option K) (item : MergeEntry K) : Bool :=
  !lower.any (item.key < ·) && upper.any (· < item.key)

theorem above_of_endsScan {lower upper : Option K} (h : endsScan lower upper item = true) :
    upper.any (· < item.key) = true :=
  (Bool.and_eq_true_iff.mp h).2

theorem emit_cases (it : RangeIterator K) (item : MergeEntry K) :
    (∃ kv, emitted it.lower it.upper item = some kv ∧ endsScan it.lower it.upper item = false ∧
        it.emit item = (.ok kv, it)) ∨
      (emitted it.lower it.upper item = none ∧ endsScan it.lower it.upper item = false ∧
        ∃ e, e.code ≠ .endOfScan ∧ it.emit item = (.error e, it)) ∨
      (endsScan it.lower it.upper item = true ∧
        it.emit item = (.error endOfScanError, { it with exhausted := true })) := by
  by_cases hl : it.lower.any (item.key < ·) = true
  · refine .inr (.inl ⟨by simp [emitted, hl], by simp [endsScan, hl], ⟨"", .skip⟩, by simp, ?_⟩)
    rw [emit, if_pos hl]
  · by_cases hu : it.upper.any (· < item.key) = true
    · refine .inr (.inr ⟨by simp only [endsScan, hl, hu]; rfl, ?_⟩)
      rw [emit, if_neg hl, if_pos hu]
    · have hin : (it.lower.any (item.key < ·) || it.upper.any (· < item.key)) = false := by
        rw [Bool.or_eq_false_iff, ← Bool.not_eq_true, ← Bool.not_eq_true]
        exact ⟨hl, hu⟩
      have hends : endsScan it.lower it.upper item = false := by
        rw [endsScan, Bool.eq_false_iff.mpr hu, Bool.and_false]
      simp only [emit, emitted, if_neg hl, if_neg hu, hin, hends, Bool.false_eq_true, if_false]
      rcases valueFromSpan item.record.value with e | value
      · exact .inr (.inl ⟨rfl, trivial, ⟨"Failed to parse value: " ++ e.msg, .genericError⟩, by simp, rfl⟩)
      · rcases hp : value.payload with - | bytes
        · exact .inr (.inl ⟨by simp [hp], trivial, ⟨"", .skip⟩, by simp, by simp [hp]⟩)
        · exact .inl ⟨(item.key, bytes), by simp [hp], trivial, by simp [hp]⟩

/-! ### One iteration -/

/-- The entries in the order in which they will leave the heap. -/
def merged (tails : ℕ → List (Record K)) (heap : List (HeapSlot K)) : List (MergeEntry K) :=
  let cs := heap.map (slotCursor tails)
  (mergeCursors Record.key (size cs) cs).map toMergeEntry

/-- What the deduplicator will make of the entry it holds and of the heap: one
entry per key of the merged sequence. -/
def upcoming (tails : ℕ → List (Record K)) (it : RangeIterator K) : List (MergeEntry K) :=
  firsts MergeEntry.key none (it.dedup.toBeCheckedItem.toList ++ merged tails it.heap)

/-- The entry that waits in the deduplicator and those still in the heap or behind it. -/
def pending (tails : ℕ → List (Record K)) (it : RangeIterator K) : List (MergeEntry K) :=
  it.dedup.toBeCheckedItem.toList ++ merged tails it.heap

/-- What a scan leaves of the entries in their order: it stops with the first entry of the
key behind the one that ends it. -/
def unread (lower upper : Option K) (entries : List (MergeEntry K)) : List (MergeEntry K) :=
  match entries.dropWhile fun a => !endsScan lower upper a with
  | [] => []
  | a :: rest => (rest.dropWhile fun b => b.key = a.key).tail

/-- An initialized iterator between two iterations. -/
structure Scanning (mem : Tables K) (infos : List SourceInfo) (tails : ℕ → List (Record K)) (lower upper : Option K)
    (it : RangeIterator K) : Prop where
  filled : Filled mem infos tails it
  topped : ∀ n, Topped tails n it
  lower : it.lower = lower
  upper : it.upper = upper
  ready : it.dedup.readyItem = none
  initialized : it.initialized = true
  exhausted : it.exhausted = false

variable {lower upper : Option K} {a : MergeEntry K}

theorem unread_of_not_endsScan (h : endsScan lower upper a = false) (l : List (MergeEntry K)) :
    unread lower upper (a :: l) = unread lower upper l := by
  simp [unread, h]

theorem unread_of_endsScan {b : MergeEntry K} (h : endsScan lower upper a = true)
    (hne : a.key ≠ b.key) (l : List (MergeEntry K)) : unread lower upper (a :: b :: l) = l := by
  simp [unread, h, hne.symm]

theorem unread_of_same_key {b : MergeEntry K} (h : a.key = b.key) (l : List (MergeEntry K)) :
    unread lower upper (a :: b :: l) = unread lower upper (a :: l) := by
  have hends : endsScan lower upper b = endsScan lower upper a := by rw [endsScan, endsScan, h]
  rcases ha : endsScan lower upper a
  · rw [unread_of_not_endsScan ha, unread_of_not_endsScan ha, unread_of_not_endsScan (hends.trans ha)]
  · simp [unread, ha, h]

theorem unread_singleton (a : MergeEntry K) : unread lower upper [a] = [] := by
  rcases ha : endsScan lower upper a
  · rw [unread_of_not_endsScan ha]
    rfl
  · simp [unread, ha]

theorem popHeap_cursors (tails : ℕ → List (Record K)) {heap : List (HeapSlot K)}
    (hpop : popHeap heapItemComparator heap = some (slot, rest)) :
    popHeap (cursorLt Record.key) (heap.map (slotCursor tails)) =
        some (slotCursor tails slot, rest.map (slotCursor tails)) ∧
      heap.Perm (slot :: rest) := by
  have hcmp : ∀ a b : HeapSlot K, heapItemComparator a b =
      cursorLt Record.key (slotCursor tails a) (slotCursor tails b) := fun _ _ => rfl
  refine ⟨?_, ?_⟩
  · rw [popHeap_map (slotCursor tails) hcmp, hpop]
    rfl
  · refine (popHeap_spec (fun a b => ?_) (fun a b c => ?_) hpop).1
    · rw [hcmp, hcmp]
      exact cursorLt_asymm _ _
    · rw [hcmp, hcmp, hcmp]
      exact cursorLt_false_trans _ _ _

/-- An iteration pushes the entry of the popped slot: as the first, as one of the key that
waits, or as one of another key, and then the entry that waited is emitted. -/
theorem iterate_cases (h : Scanning mem infos tails lower upper it)
    (hpop : popHeap heapItemComparator it.heap = some (slot, rest)) :
    ∃ tails' it', Scanning mem infos tails' lower upper it' ∧
      merged tails it.heap = slot.entry :: merged tails' it'.heap ∧
      size (it.heap.map (slotCursor tails)) = size (it'.heap.map (slotCursor tails')) + 1 ∧
      ((it.dedup.toBeCheckedItem = none ∧ it'.dedup.toBeCheckedItem = some slot.entry ∧
          it.iterate mem slot rest = (none, it')) ∨
        ∃ c, it.dedup.toBeCheckedItem = some c ∧
          ((c.key = slot.entry.key ∧ it'.dedup.toBeCheckedItem = some c ∧
              it.iterate mem slot rest = (none, it')) ∨
            c.key ≠ slot.entry.key ∧ it'.dedup.toBeCheckedItem = some slot.entry ∧
              it.iterate mem slot rest =
                match it'.emit c with
                | (.ok kv, i) => (some (.ok kv), i)
                | (.error e, i) =>
                  if e.code = .endOfScan then (some (.error e), i) else (none, i))) := by
  obtain ⟨hcs, hperm⟩ := popHeap_cursors tails hpop
  have hpopped : Filled mem infos tails
      { it with heap := slot :: rest, dedup := it.dedup.push slot.entry } :=
    ⟨h.filled.yields, fun s hs => h.filled.epochs s (hperm.symm.subset hs),
      (hperm.pairwise_iff fun hab => hab.symm).mp h.filled.distinct, h.filled.length⟩
  have htopped : ∀ n, Topped tails n
      { it with heap := slot :: rest, dedup := it.dedup.push slot.entry } := by
    intro n i hi htail
    obtain ⟨a, ha, hai⟩ := h.topped n i hi htail
    exact ⟨a, hperm.subset ha, hai⟩
  obtain ⟨tails', ⟨sources, lower', upper', dedup, heap, initialized, exhausted⟩, hfill, hF, hT,
    hsame, hcursors⟩ := fill_popped { it with dedup := it.dedup.push slot.entry } hpopped htopped
  obtain ⟨rfl, rfl, rfl, rfl, rfl⟩ := hsame
  have hsize : size (it.heap.map (slotCursor tails)) = size (heap.map (slotCursor tails')) + 1 := by
    rw [hcursors]
    exact size_pushBack hcs
  have hmerged : merged tails it.heap = slot.entry :: merged tails' heap := by
    simp only [merged, hsize, mergeCursors, hcs, ← hcursors]
    rfl
  have hlower := h.lower
  have hupper := h.upper
  -- the deduplicator after the push, and after the entry that is ready was taken
  rcases hd : it.dedup with ⟨check, ready, n⟩
  obtain rfl : ready = none := by simpa [hd] using h.ready
  simp only [hd, Deduplicator.push] at hfill hF hT
  simp only [iterate, hd, Deduplicator.push]
  rcases check with - | c
  · refine ⟨tails', _, ⟨hF, hT, hlower, hupper, rfl, h.initialized, h.exhausted⟩, hmerged, hsize,
      .inl ⟨rfl, rfl, ?_⟩⟩
    simp only [hfill]
    rfl
  · by_cases hkey : c.key = slot.entry.key
    · simp only [hkey, ne_eq, not_true_eq_false, if_false] at hfill hF hT ⊢
      refine ⟨tails', _, ⟨hF, hT, hlower, hupper, rfl, h.initialized, h.exhausted⟩, hmerged, hsize,
        .inr ⟨c, rfl, .inl ⟨hkey, rfl, ?_⟩⟩⟩
      simp only [hfill]
      rfl
    · simp only [ne_eq, hkey, not_false_eq_true, if_true] at hfill hF hT ⊢
      refine ⟨tails', { it with sources, heap, dedup := ⟨some slot.entry, none, n⟩ },
        ⟨⟨hF.yields, hF.epochs, hF.distinct, hF.length⟩, hT, hlower, hupper, rfl, h.initialized, h.exhausted⟩,
        hmerged, hsize, .inr ⟨c, rfl, .inr ⟨hkey, rfl, ?_⟩⟩⟩
      simp only [hfill]
      rfl

/-! ### `_next_inner` and `next` -/

/-- A scan that goes on: `u` is upcoming, in key order and not empty. -/
structure Live (mem : Tables K) (infos : List SourceInfo) (lower upper : Option K) (u : List (MergeEntry K))
    (it : RangeIterator K) : Prop where
  scanning : ∃ tails, Scanning mem infos tails lower upper it ∧ upcoming tails it = u
  nonempty : u ≠ []
  sorted : u.Pairwise fun a b => a.key < b.key

def Over (it : RangeIterator K) : Prop := it.initialized = true ∧ it.exhausted = true

variable {u : List (MergeEntry K)}

theorem emitted_behind (lower : Option K) {c : MergeEntry K}
    (hs : (c :: u).Pairwise fun a b => a.key < b.key) (hc : upper.any (· < c.key) = true) :
    (c :: u).filterMap (emitted lower upper) = [] := by
  refine filterMap_eq_nil_iff.mpr fun a ha => emitted_of_above ?_
  rcases upper with - | b
  · simp at hc
  · have hbc : b < c.key := by simpa using hc
    have hca : c.key ≤ a.key := by
      rcases mem_cons.mp ha with rfl | ha'
      · exact le_rfl
      · exact ((pairwise_cons.mp hs).1 a ha').le
    simpa using lt_of_lt_of_le hbc hca

theorem upcoming_of_waiting (tails : ℕ → List (Record K)) {c : MergeEntry K}
    (hc : it.dedup.toBeCheckedItem = some c) :
    ∃ rest, upcoming tails it = c :: rest := by
  refine ⟨firsts MergeEntry.key (some c.key) (merged tails it.heap), ?_⟩
  simp [upcoming, hc, firsts]

/-- A scan in which only the entry that the deduplicator holds can still be returned. -/
structure Waiting (lower upper : Option K) (c : MergeEntry K) (it : RangeIterator K) : Prop where
  check : it.dedup.toBeCheckedItem = some c
  ready : it.dedup.readyItem = none
  lower : it.lower = lower
  upper : it.upper = upper
  initialized : it.initialized = true

/-- How `_next_inner` goes along what is upcoming: it skips entries until one is emitted,
until the heap is empty, or until one ends the scan. -/
theorem nextInner_cases {fuel : ℕ} (h : Scanning mem infos tails lower upper it)
    (hne : upcoming tails it ≠ [])
    (hfuel : size (it.heap.map (slotCursor tails)) < fuel) :
    ∃ skipped tails' it', (∀ a ∈ skipped, emitted lower upper a = none) ∧
      ((∃ c kv, upcoming tails it = skipped ++ c :: upcoming tails' it' ∧
          emitted lower upper c = some kv ∧ it.nextInner mem fuel = (.ok kv, it') ∧
          Scanning mem infos tails' lower upper it' ∧ upcoming tails' it' ≠ [] ∧
          unread lower upper (pending tails' it') = unread lower upper (pending tails it)) ∨
        ∃ e c, it.nextInner mem fuel = (.error e, it') ∧ e.code = .endOfScan ∧
          Waiting lower upper c it' ∧ Filled mem infos tails' it' ∧ (∀ n, Topped tails' n it') ∧
          merged tails' it'.heap = unread lower upper (pending tails it) ∧
          (upcoming tails it = skipped ++ [c] ∨
            ∃ a rest, upcoming tails it = skipped ++ a :: c :: rest ∧
              upper.any (· < a.key) = true)) := by
  induction fuel generalizing it tails with
  | zero => exact absurd hfuel (Nat.not_lt_zero _)
  | succ fuel ih =>
    rw [nextInner]
    rcases hpop : popHeap heapItemComparator it.heap with - | ⟨slot, rest⟩
    · -- the heap is empty: what waits in the deduplicator is the last entry
      have hheap := popHeap_eq_none.mp hpop
      have hmerged : merged tails it.heap = [] := by
        simp [hheap, merged, mergeCursors, size]
      obtain ⟨c, hc⟩ : ∃ c, it.dedup.toBeCheckedItem = some c := by
        refine Option.ne_none_iff_exists'.mp fun hnone => hne ?_
        simp [upcoming, hnone, hmerged, firsts]
      refine ⟨[], tails, it, by simp, .inr ⟨_, c, rfl, rfl,
        ⟨hc, h.ready, h.lower, h.upper, h.initialized⟩, h.filled, h.topped, ?_, .inl ?_⟩⟩
      · rw [pending, hc, hmerged]
        exact (unread_singleton c).symm
      · simp [upcoming, hc, hmerged, firsts]
    · obtain ⟨tails', it', hscan, hmerged, hsize, hstep⟩ := iterate_cases h hpop
      have hfuel' : size (it'.heap.map (slotCursor tails')) < fuel := by omega
      dsimp only
      rcases hstep with ⟨hnone, hcheck, hiter⟩ |
        ⟨c, hc, ⟨hkey, hcheck, hiter⟩ | ⟨hkey, hcheck, hiter⟩⟩
      · -- the first entry of the scan waits now
        have hsame : pending tails' it' = pending tails it := by
          rw [pending, pending, hnone, hcheck, hmerged]
          rfl
        have hup : upcoming tails' it' = upcoming tails it :=
          congrArg (firsts MergeEntry.key none) hsame
        rw [hiter, ← hsame, ← hup]
        exact ih hscan (hup ▸ hne) hfuel'
      · -- an older version of the entry that waits
        have hsame : unread lower upper (pending tails' it') =
            unread lower upper (pending tails it) := by
          rw [pending, pending, hc, hcheck, hmerged]
          exact (unread_of_same_key hkey _).symm
        have hup : upcoming tails' it' = upcoming tails it := by
          simp [upcoming, hc, hcheck, hmerged, firsts, hkey]
        rw [hiter, ← hsame, ← hup]
        exact ih hscan (hup ▸ hne) hfuel'
      · have hup : upcoming tails it = c :: upcoming tails' it' := by
          simp [upcoming, hc, hcheck, hmerged, firsts, hkey]
        have hpending : pending tails it = c :: pending tails' it' := by
          rw [pending, pending, hc, hcheck, hmerged]
          rfl
        obtain ⟨rest', hrest'⟩ := upcoming_of_waiting tails' hcheck
        have hne' : upcoming tails' it' ≠ [] := by rw [hrest']; exact cons_ne_nil _ _
        rw [hiter, hup, hpending]
        rcases emit_cases it' c with
          ⟨kv, hkv, hgo, hemit⟩ | ⟨hnone, hgo, e, he, hemit⟩ | ⟨hends, hemit⟩
        · -- emitted
          rw [hscan.lower, hscan.upper] at hkv hgo
          rw [hemit, unread_of_not_endsScan hgo]
          exact ⟨[], tails', it', by simp, .inl ⟨c, kv, rfl, hkv, rfl, hscan, hne', rfl⟩⟩
        · -- skipped
          rw [hscan.lower, hscan.upper] at hnone hgo
          rw [hemit, unread_of_not_endsScan hgo]
          simp only [if_neg he]
          obtain ⟨skipped, tails'', it'', hskipped, hcases⟩ := ih hscan hne' hfuel'
          refine ⟨c :: skipped, tails'', it'', forall_mem_cons.mpr ⟨hnone, hskipped⟩, ?_⟩
          rcases hcases with ⟨d, kv, hup', hrest⟩ |
            ⟨e', d, hinner, he', hw, hF, hT, hleft, hup' | ⟨a, rest'', hup', habove⟩⟩
          · exact .inl ⟨d, kv, congrArg (c :: ·) hup', hrest⟩
          · exact .inr ⟨e', d, hinner, he', hw, hF, hT, hleft, .inl (congrArg (c :: ·) hup')⟩
          · exact .inr ⟨e', d, hinner, he', hw, hF, hT, hleft,
              .inr ⟨a, rest'', congrArg (c :: ·) hup', habove⟩⟩
        · -- behind the bounds
          rw [hscan.lower, hscan.upper] at hends
          have hleft : unread lower upper (c :: pending tails' it') = merged tails' it'.heap := by
            rw [pending, hcheck]
            exact unread_of_endsScan hends hkey _
          rw [hemit, hleft]
          exact ⟨[], tails', { it' with exhausted := true }, by simp, .inr ⟨_, slot.entry, rfl, rfl,
            ⟨hcheck, hscan.ready, hscan.lower, hscan.upper, hscan.initialized⟩,
            ⟨hscan.filled.yields, hscan.filled.epochs, hscan.filled.distinct, hscan.filled.length⟩,
            hscan.topped, rfl,
            .inr ⟨c, rest', congrArg (c :: ·) hrest', above_of_endsScan hends⟩⟩⟩

theorem filterMap_skipped {skipped : List (MergeEntry K)}
    (h : ∀ a ∈ skipped, emitted lower upper a = none) (rest : List (MergeEntry K)) :
    (skipped ++ rest).filterMap (emitted lower upper) =
      rest.filterMap (emitted lower upper) := by
  rw [filterMap_append, filterMap_eq_nil_iff.mpr h, nil_append]

/-- `_next_inner` returns the first pair of what is upcoming, unless only the
last entry of the deduplicator can still be returned. -/
theorem nextInner_spec {fuel : ℕ} (h : Scanning mem infos tails lower upper it)
    (hne : upcoming tails it ≠ [])
    (hs : (upcoming tails it).Pairwise fun a b => a.key < b.key)
    (hfuel : size (it.heap.map (slotCursor tails)) < fuel) :
    (∃ kv rest it', it.nextInner mem fuel = (.ok kv, it') ∧ Live mem infos lower upper rest it' ∧
        (upcoming tails it).filterMap (emitted lower upper) =
          kv :: rest.filterMap (emitted lower upper)) ∨
      ∃ e c it', it.nextInner mem fuel = (.error e, it') ∧ e.code = .endOfScan ∧
        Waiting lower upper c it' ∧
        (upcoming tails it).filterMap (emitted lower upper) =
          [c].filterMap (emitted lower upper) := by
  obtain ⟨skipped, tails', it', hskipped, ⟨c, kv, hup, hkv, hinner, hscan, hne', -⟩ |
    ⟨e, c, hinner, he, hwait, -, -, -, hup | ⟨a, rest, hup, habove⟩⟩⟩ := nextInner_cases h hne hfuel
  · rw [hup] at hs ⊢
    have hs' := (pairwise_cons.mp (pairwise_append.mp hs).2.1).2
    refine .inl ⟨kv, _, it', hinner, ⟨⟨tails', hscan, rfl⟩, hne', hs'⟩, ?_⟩
    rw [filterMap_skipped hskipped, filterMap_cons, hkv]
  · refine .inr ⟨e, c, it', hinner, he, hwait, ?_⟩
    rw [hup, filterMap_skipped hskipped]
  · -- the entry that waits is behind the upper bound, too
    refine .inr ⟨e, c, it', hinner, he, hwait, ?_⟩
    rw [hup] at hs ⊢
    have hbehind := emitted_behind lower (pairwise_append.mp hs).2.1 habove
    have hc : emitted lower upper c = none :=
      filterMap_eq_nil_iff.mp hbehind c (mem_cons_of_mem a mem_cons_self)
    rw [filterMap_skipped hskipped, hbehind]
    simp [hc]

omit [LinearOrder K] in
theorem size_cons (c : Cursor (Record K)) (cs : List (Cursor (Record K))) :
    size (c :: cs) = c.tail.length + 1 + size cs := by
  simp [size, Cursor.items]
  omega

theorem Filled.size_lt_bound (h : Filled mem infos tails it) :
    size (it.heap.map (slotCursor tails)) < it.bound mem := by
  rw [bound, Nat.lt_succ_iff]
  have hslot : ∀ slot ∈ it.heap,
      (tails slot.source).length ≤ (it.sources[slot.source]?.map (sourceBound mem)).getD 0 := by
    intro slot hslot
    obtain ⟨s, hs, -⟩ := h.epochs slot hslot
    rw [hs]
    obtain ⟨_, _, hy, _⟩ := h.yields _ s hs
    exact hy.length_le
  revert hslot
  generalize it.heap = heap
  intro hslot
  induction heap with
  | nil => exact le_rfl
  | cons slot heap ih =>
    have hhead := hslot slot mem_cons_self
    have htail := ih fun s hs => hslot s (mem_cons_of_mem _ hs)
    rw [map_cons, size_cons, map_cons, sum_cons]
    exact Nat.add_le_add (Nat.succ_le_succ hhead) htail

theorem next_eq_of_ok (h : Scanning mem infos tails lower upper it) {kv : K × Bytes}
    {it' : RangeIterator K} (hinner : it.nextInner mem (it.bound mem) = (.ok kv, it')) :
    it.next mem = (.ok kv, it') := by
  simp [next, h.initialized, h.exhausted, hinner]

theorem next_eq_of_end (h : Scanning mem infos tails lower upper it) {e : Error}
    {it' : RangeIterator K} (hinner : it.nextInner mem (it.bound mem) = (.error e, it'))
    (he : e.code = .endOfScan) : it.next mem = it'.drain := by
  simp [next, h.initialized, h.exhausted, hinner, he]

theorem drain_eq {c : MergeEntry K} (h : Waiting lower upper c it) :
    ∃ it', Over it' ∧ it'.sources = it.sources ∧
      it.drain = (((emitted lower upper c).elim (.error endOfScanError) .ok), it') := by
  obtain ⟨hc, hready, rfl, rfl, hinit⟩ := h
  have hpop : it.dedup.pop = .error { msg := "No ready item to pop" } := by
    simp [Deduplicator.pop, hready]
  have hforce : it.dedup.forcePop = .ok (c, { it.dedup with toBeCheckedItem := none }) := by
    simp [Deduplicator.forcePop, hready, hc]
  refine ⟨{ it with dedup := { it.dedup with toBeCheckedItem := none }, exhausted := true },
    ⟨hinit, rfl⟩, rfl, ?_⟩
  simp only [drain, hpop, last, hforce]
  rcases emit_cases
    { it with dedup := { it.dedup with toBeCheckedItem := none }, exhausted := true } c with
    ⟨kv, hkv, -, hemit⟩ | ⟨hnone, -, e, -, hemit⟩ | ⟨hends, hemit⟩
  · rw [hemit, hkv]
    rfl
  · rw [hemit, hnone]
    rfl
  · rw [hemit, emitted_of_above (above_of_endsScan hends)]
    rfl

/-- **What a call of `next` does.**  It returns the first pair of what is
upcoming and goes on behind it, or it ends the scan. -/
theorem next_spec (h : Live mem infos lower upper u it) :
    (∃ kv it', it.next mem = (.ok kv, it') ∧ ∃ rest,
        u.filterMap (emitted lower upper) = kv :: rest ∧
        ((∃ u', Live mem infos lower upper u' it' ∧ rest = u'.filterMap (emitted lower upper)) ∨
          Over it' ∧ rest = [])) ∨
      ∃ it', it.next mem = (.error endOfScanError, it') ∧ Over it' ∧
        u.filterMap (emitted lower upper) = [] := by
  obtain ⟨⟨tails, hscan, rfl⟩, hne, hs⟩ := h
  rcases nextInner_spec hscan hne hs hscan.filled.size_lt_bound with
    ⟨kv, rest, it', hinner, hlive, hu⟩ |
    ⟨e, c, it', hinner, he, hwait, hu⟩
  · exact .inl ⟨kv, it', next_eq_of_ok hscan hinner, _, hu, .inl ⟨rest, hlive, rfl⟩⟩
  · -- only the last entry of the deduplicator is left
    obtain ⟨it'', hover, -, hdrain⟩ := drain_eq hwait
    rw [next_eq_of_end hscan hinner he, hdrain, hu]
    rcases hemit : emitted lower upper c with - | kv
    · exact .inr ⟨it'', rfl, hover, by simp [hemit]⟩
    · exact .inl ⟨kv, it'', rfl, [], by simp [hemit], .inr ⟨hover, rfl⟩⟩

/-! ### Successive calls -/

/-- What the calls return when `kvs` are the pairs of the scan. -/
def resultAt (kvs : List (K × Bytes)) (n : ℕ) : Expected (K × Bytes) :=
  kvs[n]?.elim (.error endOfScanError) .ok

theorem call_succ (n : ℕ) : it.call mem (n + 1) = (it.next mem).2.call mem n := rfl

theorem Over.call_eq (h : Over it) (n : ℕ) : it.call mem n = .error endOfScanError := by
  have hnext : it.next mem = (.error endOfScanError, it) := by
    simp [next, h.1, h.2]
  induction n with
  | zero => exact congrArg Prod.fst hnext
  | succ n ih => rw [call_succ, hnext, ih]

theorem Live.call_eq (h : Live mem infos lower upper u it) (n : ℕ) :
    it.call mem n = resultAt (u.filterMap (emitted lower upper)) n := by
  induction n generalizing it u with
  | zero =>
    rcases next_spec h with ⟨kv, it', hnext, rest, hu, -⟩ | ⟨it', hnext, -, hu⟩
    · rw [hu]
      exact congrArg Prod.fst hnext
    · rw [hu]
      exact congrArg Prod.fst hnext
  | succ n ih =>
    rw [call_succ]
    rcases next_spec h with
      ⟨kv, it', hnext, rest, hu, ⟨u', hlive, rfl⟩ | ⟨hover, rfl⟩⟩ | ⟨it', hnext, hover, hu⟩
    · rw [hnext, hu]
      exact ih hlive
    · rw [hnext, hu]
      exact hover.call_eq n
    · rw [hnext, hu]
      exact hover.call_eq n

/-! ### The start of a scan -/

variable {srcs : List (ScanSource K × List (Record K))}

/-- A new iterator over the sources in `srcs`, each listed with what it yields. -/
def fresh (srcs : List (ScanSource K × List (Record K))) (lower upper : Option K) :
    RangeIterator K :=
  { sources := srcs.map Prod.fst, lower, upper }

theorem fill_fresh (h : Filled mem infos tails it) {p : ScanSource K × List (Record K)}
    (hs : it.sources[i]? = some s) (hepoch : s.epoch = p.1.epoch) (htail : tails i = p.2)
    (hnew : ∀ slot ∈ it.heap, slot.source < i) (htop : Topped tails i it) :
    ∃ tails' it', it.fill mem i = it' ∧ Filled mem infos tails' it' ∧ SameScan it it' ∧
      (∀ slot ∈ it'.heap, slot.source < i + 1) ∧ Topped tails' (i + 1) it' ∧
      (∀ j, i < j → it'.sources[j]? = it.sources[j]? ∧ tails' j = tails j) ∧
      it'.heap.map (slotCursor tails') =
        it.heap.map (slotCursor tails) ++ (asSst p).cursor.toList := by
  obtain ⟨info, hinfo, hy, hinfo'⟩ := h.yields i s hs
  rw [htail] at hy
  have hne : ∀ slot ∈ it.heap, slot.source ≠ i := fun slot hslot => (hnew slot hslot).ne
  rcases hp : p.2 with - | ⟨r, rs⟩
  · refine ⟨tails, it, fill_nil hs (hp ▸ hy), h, ⟨rfl, rfl, rfl, rfl, rfl⟩,
      fun slot hslot => (hnew slot hslot).trans i.lt_succ_self, ?_, fun j _ => ⟨rfl, rfl⟩, ?_⟩
    · intro j hj hjtail
      rcases Nat.lt_succ_iff_lt_or_eq.mp hj with hlt | rfl
      · exact htop j hlt hjtail
      · exact absurd (htail.trans hp) hjtail
    · simp [asSst, Sst.cursor, hp]
  · obtain ⟨s', hy', hepoch', hfill⟩ := fill_cons it hs (hp ▸ hy)
    refine ⟨update tails i rs, _, hfill, h.set hs hinfo hinfo' hy' hepoch' hne,
      ⟨rfl, rfl, rfl, rfl, rfl⟩, ?_, ?_, ?_, ?_⟩
    · intro slot hslot
      rcases mem_append.mp hslot with hold | hlast
      · exact (hnew slot hold).trans i.lt_succ_self
      · obtain rfl := mem_singleton.mp hlast
        exact i.lt_succ_self
    · intro j hj hjtail
      rcases Nat.lt_succ_iff_lt_or_eq.mp hj with hlt | rfl
      · rw [update_of_ne hlt.ne] at hjtail
        obtain ⟨slot, hslot, hsj⟩ := htop j hlt hjtail
        exact ⟨slot, mem_append_left _ hslot, hsj⟩
      · exact ⟨_, mem_append_right _ mem_cons_self, rfl⟩
    · intro j hj
      exact ⟨getElem?_set_ne hj.ne, update_of_ne hj.ne' _ _⟩
    · rw [map_append, map_slotCursor_update hne]
      simp [asSst, Sst.cursor, hp, slotCursor, hepoch]

/-- The sources are listed with what they hand out. -/
def Described (mem : Tables K) (infos : List SourceInfo)
    (srcs : List (ScanSource K × List (Record K))) : Prop :=
  srcs.length = infos.length ∧ ∀ (i : ℕ) p, srcs[i]? = some p → ∃ info, infos[i]? = some info ∧
    p.1.HandsOut mem info.ends p.2 ∧ p.1.epoch = info.epoch

theorem init_scanning (hsrcs : Described mem infos srcs) (lower upper : Option K) :
    ∃ tails, Scanning mem infos tails lower upper ((fresh srcs lower upper).init mem) ∧
      ((fresh srcs lower upper).init mem).heap.map (slotCursor tails) =
        (srcs.map asSst).filterMap Sst.cursor ∧
      ((fresh srcs lower upper).init mem).dedup = {} := by
  obtain ⟨start, hstart⟩ : ∃ start : RangeIterator K, start =
      { fresh srcs lower upper with
        sources := (srcs.map Prod.fst).map ScanSource.refresh } := ⟨_, rfl⟩
  have hsource : ∀ i : ℕ, start.sources[i]? = srcs[i]?.map fun p => p.1.refresh := by
    intro i
    rw [hstart, getElem?_map, getElem?_map, Option.map_map]
    rfl
  have hfilled : Filled mem infos (fun i => (srcs[i]?.map Prod.snd).getD []) start := by
    refine ⟨fun i s hs => ?_, by simp [hstart, fresh], by simp [hstart, fresh],
      by simp [hstart, hsrcs.1]⟩
    rw [hsource] at hs
    obtain ⟨p, hp, rfl⟩ := Option.map_eq_some_iff.mp hs
    rw [hp]
    obtain ⟨info, hinfo, hout, hepoch⟩ := hsrcs.2 i p hp
    exact ⟨info, hinfo, hout.refresh, (ScanSource.refresh_epoch p.1).trans hepoch⟩
  -- the first `n` sources are in the heap, the others are untouched
  suffices hn : ∀ n ≤ srcs.length, ∃ tails it',
      (range n).foldl (fill mem) start = it' ∧ Filled mem infos tails it' ∧ SameScan start it' ∧
      (∀ slot ∈ it'.heap, slot.source < n) ∧ Topped tails n it' ∧
      (∀ j, n ≤ j → it'.sources[j]? = start.sources[j]? ∧
        tails j = (srcs[j]?.map Prod.snd).getD []) ∧
      it'.heap.map (slotCursor tails) = ((srcs.take n).map asSst).filterMap Sst.cursor by
    obtain ⟨tails, it', hfold, hF, hsame, -, htop, hrest, hcursors⟩ := hn _ le_rfl
    have hinit : (fresh srcs lower upper).init mem = { it' with initialized := true } := by
      rw [← hfold, hstart]
      simp [init, fresh]
    have htopped : ∀ n, Topped tails n { it' with initialized := true } := by
      intro n i _ htail
      by_cases hi : i < srcs.length
      · exact htop i hi htail
      · rw [(hrest i (Nat.not_lt.mp hi)).2, getElem?_eq_none (Nat.not_lt.mp hi)] at htail
        exact absurd rfl htail
    rw [take_length] at hcursors
    obtain ⟨hlower, hupper, hdedup, -, hexhausted⟩ := hsame
    rw [hstart] at hlower hupper hdedup hexhausted
    rw [hinit]
    refine ⟨tails, ⟨⟨hF.yields, hF.epochs, hF.distinct, hF.length⟩, htopped, hlower, hupper, ?_, rfl,
      hexhausted⟩, hcursors, hdedup⟩
    show it'.dedup.readyItem = none
    rw [hdedup]
    rfl
  intro n hn
  induction n with
  | zero =>
    refine ⟨_, start, rfl, hfilled, ⟨rfl, rfl, rfl, rfl, rfl⟩, by simp [hstart, fresh],
      fun i hi => absurd hi (Nat.not_lt_zero i), fun j _ => ⟨rfl, rfl⟩, by simp [hstart, fresh]⟩
  | succ n ih =>
    obtain ⟨tails, it', hfold, hF, hsame, hlt, htop, hrest, hcursors⟩ := ih (by omega)
    obtain ⟨p, hp⟩ : ∃ p, srcs[n]? = some p := ⟨srcs[n], getElem?_eq_getElem hn⟩
    obtain ⟨hsrc, htail⟩ := hrest n le_rfl
    rw [hsource, hp] at hsrc
    obtain ⟨tails', it'', hfill, hF', hsame', hlt', htop', hrest', hcursors'⟩ :=
      fill_fresh hF hsrc (ScanSource.refresh_epoch p.1) (by rw [htail, hp]; rfl) hlt htop
    refine ⟨tails', it'', ?_, hF', ?_, hlt', htop', fun j hj => ?_, ?_⟩
    · rw [range_succ, foldl_append, hfold]
      exact hfill
    · exact ⟨hsame'.lower.trans hsame.lower, hsame'.upper.trans hsame.upper,
        hsame'.dedup.trans hsame.dedup, hsame'.initialized.trans hsame.initialized,
        hsame'.exhausted.trans hsame.exhausted⟩
    · obtain ⟨h₁, h₂⟩ := hrest' j hj
      obtain ⟨h₃, h₄⟩ := hrest j (by omega)
      exact ⟨h₁.trans h₃, h₂.trans h₄⟩
    · rw [hcursors', hcursors, take_add_one, hp, map_append, filterMap_append]
      rcases hc : (asSst p).cursor with - | c <;> simp [hc]

/-! ### The merged sources -/

/-- The sources of a scan: strictly increasing keys, decodable values, distinct
epochs. -/
structure Scannable (srcs : List (ScanSource K × List (Record K))) : Prop where
  sorted : ∀ p ∈ srcs, p.2.Pairwise fun a b => a.key < b.key
  decodable : ∀ p ∈ srcs, ∀ r ∈ p.2, Decodable r.value
  epochs : srcs.Pairwise fun p q => p.1.epoch ≠ q.1.epoch

variable {p : ScanSource K × List (Record K)}

/-- The same without a condition on the values. -/
structure SortedSources (srcs : List (ScanSource K × List (Record K))) : Prop where
  sorted : ∀ p ∈ srcs, p.2.Pairwise fun a b => a.key < b.key
  epochs : srcs.Pairwise fun p q => p.1.epoch ≠ q.1.epoch

theorem Scannable.sortedSources (h : Scannable srcs) : SortedSources srcs := ⟨h.sorted, h.epochs⟩

theorem SortedSources.mergeSorted (h : SortedSources srcs) : MergeSorted (srcs.map asSst) := by
  refine ⟨?_, pairwise_map.mpr h.epochs⟩
  intro s hs
  obtain ⟨p, hp, rfl⟩ := mem_map.mp hs
  exact h.sorted p hp

/-- The newest versions of all keys of the sources, in key order. -/
def newest (srcs : List (ScanSource K × List (Record K))) : List (MergeEntry K) :=
  (firsts (fun p => p.1.key) none (mergedSequence (srcs.map asSst))).map toMergeEntry

theorem SortedSources.newest_sorted (h : SortedSources srcs) :
    (newest srcs).Pairwise fun a b => a.key < b.key :=
  pairwise_map.mpr (firsts_strict none (sorted_le h.mergeSorted.mergedSequence_sorted))

theorem SortedSources.mem_newest (h : SortedSources srcs) :
    (∃ item ∈ newest srcs, item.record = r) ↔
      ∃ p ∈ srcs, r ∈ p.2 ∧
        ∀ q ∈ srcs, ∀ r' ∈ q.2, r'.key = r.key → q.1.epoch ≤ p.1.epoch := by
  have hmem : (∃ item ∈ newest srcs, item.record = r) ↔ Newest (srcs.map asSst) r := by
    rw [← h.mergeSorted.mem_firsts]
    constructor
    · rintro ⟨item, hitem, rfl⟩
      obtain ⟨⟨r, epoch⟩, hr, rfl⟩ := mem_map.mp hitem
      exact ⟨epoch, hr⟩
    · rintro ⟨epoch, hr⟩
      exact ⟨_, mem_map_of_mem hr, rfl⟩
  rw [hmem]
  constructor
  · rintro ⟨s, hs, hr, hmax⟩
    obtain ⟨p, hp, rfl⟩ := mem_map.mp hs
    exact ⟨p, hp, hr, fun q hq => hmax (asSst q) (mem_map_of_mem hq)⟩
  · rintro ⟨p, hp, hr, hmax⟩
    refine ⟨asSst p, mem_map_of_mem hp, hr, fun s' hs' => ?_⟩
    obtain ⟨q, hq, rfl⟩ := mem_map.mp hs'
    exact hmax q hq

/-- The entries of all sources in the order in which they leave the heap. -/
def mergedEntries (srcs : List (ScanSource K × List (Record K))) : List (MergeEntry K) :=
  (mergedSequence (srcs.map asSst)).map toMergeEntry

theorem pending_init (hsrcs : Described mem infos srcs) (lower upper : Option K) :
    ∃ tails, Scanning mem infos tails lower upper ((fresh srcs lower upper).init mem) ∧
      ((fresh srcs lower upper).init mem).dedup = {} ∧
      merged tails ((fresh srcs lower upper).init mem).heap = mergedEntries srcs := by
  obtain ⟨tails, hscan, hcursors, hdedup⟩ := init_scanning hsrcs lower upper
  refine ⟨tails, hscan, hdedup, ?_⟩
  simp only [merged, hcursors, size_cursors]
  rfl

theorem upcoming_init (hsrcs : Described mem infos srcs) (lower upper : Option K) :
    ∃ tails, Scanning mem infos tails lower upper ((fresh srcs lower upper).init mem) ∧
      upcoming tails ((fresh srcs lower upper).init mem) = newest srcs := by
  obtain ⟨tails, hscan, hdedup, hmerged⟩ := pending_init hsrcs lower upper
  refine ⟨tails, hscan, ?_⟩
  rw [upcoming, hdedup, hmerged, mergedEntries]
  exact firsts_map _ _ _

theorem newest_eq_nil_iff : newest srcs = [] ↔ ∀ p ∈ srcs, p.2 = [] := by
  constructor
  · intro hnil p hp
    by_contra hne
    obtain ⟨r, hr⟩ := exists_mem_of_ne_nil _ hne
    have hmem : (r, p.1.epoch) ∈ mergedSequence (srcs.map asSst) :=
      mem_mergedSequence.mpr ⟨asSst p, mem_map_of_mem hp, hr, rfl⟩
    rcases e : mergedSequence (srcs.map asSst) with - | ⟨a, l⟩
    · rw [e] at hmem
      cases hmem
    · simp [newest, e, firsts] at hnil
  · intro hall
    rcases e : mergedSequence (srcs.map asSst) with - | ⟨⟨r, epoch⟩, l⟩
    · rw [newest, e]
      rfl
    · obtain ⟨s, hs, hr, -⟩ := mem_mergedSequence.mp (e ▸ mem_cons_self)
      obtain ⟨p, hp, rfl⟩ := mem_map.mp hs
      have hr' : r ∈ p.2 := hr
      rw [hall p hp] at hr'
      cases hr'

theorem described_map {ends : ScanSource K × List (Record K) → Bool}
    (h : ∀ p ∈ srcs, p.1.HandsOut mem (ends p) p.2) :
    Described mem (srcs.map fun p => ⟨ends p, p.1.epoch⟩) srcs := by
  refine ⟨(length_map _).symm, fun i p hp => ⟨⟨ends p, p.1.epoch⟩, ?_, ?_, rfl⟩⟩
  · rw [getElem?_map, hp]
    rfl
  · exact h p (mem_of_getElem? hp)

theorem live_init (h : SortedSources srcs) (hsrcs : Described mem infos srcs)
    (hne : ∃ p ∈ srcs, p.2 ≠ []) (lower upper : Option K) :
    Live mem infos lower upper (newest srcs) ((fresh srcs lower upper).init mem) := by
  refine ⟨upcoming_init hsrcs lower upper, fun hnil => ?_, h.newest_sorted⟩
  obtain ⟨p, hp, hp'⟩ := hne
  exact hp' (newest_eq_nil_iff.mp hnil p hp)

theorem call_fresh (n : ℕ) :
    (fresh srcs lower upper).call mem n = ((fresh srcs lower upper).init mem).call mem n := by
  have hnext : (fresh srcs lower upper).next mem = ((fresh srcs lower upper).init mem).next mem := by
    simp [next, fresh, init]
  rcases n with - | n
  · exact congrArg Prod.fst hnext
  · rw [call_succ, call_succ, hnext]

theorem emitted_eq_some_iff {k : K} {v : Bytes} :
    emitted lower upper item = some (k, v) ↔
      (∀ b ∈ lower, b ≤ k) ∧ (∀ b ∈ upper, k ≤ b) ∧ item.key = k ∧
        (valueFromSpan item.record.value = .ok (.bytes v) ∨
          valueFromSpan item.record.value = .ok (.valuePtr v)) := by
  have hrange : (lower.any (item.key < ·) || upper.any (· < item.key)) = false ↔
      (∀ b ∈ lower, b ≤ item.key) ∧ ∀ b ∈ upper, item.key ≤ b := by
    rw [Bool.or_eq_false_iff]
    rcases lower with - | b <;> rcases upper with - | b' <;> simp
  have hvalue : (match valueFromSpan item.record.value with
      | .error _ => none
      | .ok value => value.payload.map (item.key, ·)) = some (k, v) ↔
        item.key = k ∧ (valueFromSpan item.record.value = .ok (.bytes v) ∨
          valueFromSpan item.record.value = .ok (.valuePtr v)) := by
    rcases valueFromSpan item.record.value with e | (raw | data | -) <;> simp [Value.payload]
  by_cases hin : (lower.any (item.key < ·) || upper.any (· < item.key)) = true
  · rw [emitted, if_pos hin]
    refine iff_of_false (by simp) ?_
    rintro ⟨hl, hu, rfl, -⟩
    rw [hrange.mpr ⟨hl, hu⟩] at hin
    cases hin
  · rw [emitted, if_neg hin]
    obtain ⟨hl, hu⟩ := hrange.mp (Bool.eq_false_iff.mpr hin)
    refine hvalue.trans ⟨?_, fun h => h.2.2⟩
    rintro ⟨rfl, hv⟩
    exact ⟨hl, hu, rfl, hv⟩

theorem SortedSources.mem_emitted (h : SortedSources srcs) {k : K} {v : Bytes} :
    (k, v) ∈ (newest srcs).filterMap (emitted lower upper) ↔
      (∀ b ∈ lower, b ≤ k) ∧ (∀ b ∈ upper, k ≤ b) ∧
        ∃ p ∈ srcs, ∃ r ∈ p.2, r.key = k ∧
          (∀ q ∈ srcs, ∀ r' ∈ q.2, r'.key = k → q.1.epoch ≤ p.1.epoch) ∧
          (valueFromSpan r.value = .ok (.bytes v) ∨ valueFromSpan r.value = .ok (.valuePtr v)) := by
  rw [mem_filterMap]
  constructor
  · rintro ⟨item, hitem, hemit⟩
    obtain ⟨hl, hu, rfl, hv⟩ := emitted_eq_some_iff.mp hemit
    obtain ⟨p, hp, hr, hmax⟩ := h.mem_newest.mp ⟨item, hitem, rfl⟩
    exact ⟨hl, hu, p, hp, item.record, hr, rfl, hmax, hv⟩
  · rintro ⟨hl, hu, p, hp, r, hr, rfl, hmax, hv⟩
    obtain ⟨item, hitem, rfl⟩ := h.mem_newest.mpr ⟨p, hp, hr, hmax⟩
    exact ⟨item, hitem, emitted_eq_some_iff.mpr ⟨hl, hu, rfl, hv⟩⟩

/-- **A scan merges its sources exactly.**  The pairs that successive calls of
`next` return are strictly increasing by key and are the keys of the sources
within the bounds whose value in the source of highest epoch is not a
tombstone, each with that value; every later call returns `END_OF_SCAN`. -/
theorem scan_merges_sources (mem : Tables K) (srcs : List (ScanSource K × List (Record K)))
    (lower upper : Option K) (hyields : ∀ p ∈ srcs, p.1.Yields mem p.2) (h : Scannable srcs)
    (hne : ∃ p ∈ srcs, p.2 ≠ []) :
    ∃ kvs : List (K × Bytes), kvs.Pairwise (fun a b => a.1 < b.1) ∧
      (∀ k v, (k, v) ∈ kvs ↔ (∀ b ∈ lower, b ≤ k) ∧ (∀ b ∈ upper, k ≤ b) ∧
        ∃ p ∈ srcs, ∃ r ∈ p.2, r.key = k ∧
          (∀ q ∈ srcs, ∀ r' ∈ q.2, r'.key = k → q.1.epoch ≤ p.1.epoch) ∧
          (valueFromSpan r.value = .ok (.bytes v) ∨ valueFromSpan r.value = .ok (.valuePtr v))) ∧
      ∀ n, (fresh srcs lower upper).call mem n =
        if hn : n < kvs.length then .ok kvs[n] else .error endOfScanError := by
  refine ⟨(newest srcs).filterMap (emitted lower upper), ?_, ?_, ?_⟩
  · refine Pairwise.filterMap _ ?_ h.sortedSources.newest_sorted
    rintro a b hab ⟨k, v⟩ ha ⟨k', v'⟩ hb
    obtain ⟨-, -, rfl, -⟩ := emitted_eq_some_iff.mp ha
    obtain ⟨-, -, rfl, -⟩ := emitted_eq_some_iff.mp hb
    exact hab
  · exact fun k v => h.sortedSources.mem_emitted
  · intro n
    have hout : ∀ p ∈ srcs, p.1.HandsOut mem true p.2 := fun p hp =>
      ScanSource.handsOut_true_iff.mpr (hyields p hp)
    have hlive := live_init h.sortedSources (described_map hout) hne lower upper
    rw [call_fresh, hlive.call_eq n, resultAt]
    split
    · next hn => rw [getElem?_eq_getElem hn]; rfl
    · next hn => rw [getElem?_eq_none (not_lt.mp hn)]; rfl

/-! A scan of `[1, 3]` over an SST read in two chunks and a table that deletes
one of its keys. -/

def scannedTable : Skiplist ℕ :=
  (Skiplist.empty.insert ⟨2, 5, encodeValue .tombstone []⟩).insert
    ⟨3, 6, encodeValue .inPlaceValue [30]⟩

/-- The stream and the cursor, with what they yield. -/
def scannedSources : List (ScanSource ℕ × List (Record ℕ)) :=
  let r := fun (k stamp : ℕ) (v : UInt8) => (⟨k, stamp, encodeValue .inPlaceValue [v]⟩ : Record ℕ)
  let sst : Sst ℕ :=
    { id := 0, indexId := 0, epoch := 4, upperBound := 0, maxSeqNr := 3
      entries := [r 0 0 1, r 1 1 10, r 2 2 20, r 4 3 40] }
  [(.stream { index := sst, reader := [⟨[r 0 0 1, r 1 1 10], 0⟩, ⟨[r 2 2 20, r 4 3 40], 0⟩] },
      sst.entries),
    (.cursor (.make scannedTable 0 (some 1) (some 3) uint64Max uint64Max),
      scannedTable.entries.map MemtableEntry.toRecord)]

theorem scan_merges_two_sources :
    ((fresh scannedSources (some 1) (some 3)).call (fun _ => scannedTable) 0 = .ok (1, [10]) ∧
      (fresh scannedSources (some 1) (some 3)).call (fun _ => scannedTable) 1 = .ok (3, [30])) ∧
    ∃ kvs : List (ℕ × Bytes), kvs.Pairwise (fun a b => a.1 < b.1) ∧
      ∀ n, (fresh scannedSources (some 1) (some 3)).call (fun _ => scannedTable) n =
        if hn : n < kvs.length then .ok kvs[n] else .error endOfScanError := by
  refine ⟨⟨rfl, rfl⟩, ?_⟩
  have hyields : ∀ p ∈ scannedSources, p.1.Yields (fun _ => scannedTable) p.2 := by
    intro p hp
    rcases mem_cons.mp hp with rfl | hp'
    · exact ⟨by unfold SstStream.NoEmptyChunk; decide, rfl⟩
    · obtain rfl := mem_singleton.mp hp'
      exact .entry rfl rfl (.entry rfl rfl (.eof rfl))
  have hscan : Scannable scannedSources := ⟨by decide, by decide, by decide⟩
  obtain ⟨kvs, hsorted, -, hcalls⟩ := scan_merges_sources (fun _ => scannedTable) scannedSources
    (some 1) (some 3) hyields hscan ⟨_, mem_cons_self, cons_ne_nil _ _⟩
  exact ⟨kvs, hsorted, hcalls⟩

end RangeIterator

end HedgeDB
