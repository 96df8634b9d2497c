/-
HedgeDB/Merge.lean

`index_ops::k_way_merge_async2` (`src/db/merge/merge.cc`).

The heap holds one slot per stream that is not exhausted.  An iteration pops
the slot that comes first, pushes its entry into the deduplicator, refills the
slot from its stream (refreshing the buffers of every stream that runs low when
this one is empty), and writes the entry the deduplicator has made ready, if
any.  After the loop the deduplicator is drained.

`mergeLoop_eq` forgets the buffers: the loop feeds the deduplicator the merged
sequence of the cursors (`KWayMerge.mergeCursors`).  `consume_drain` forgets the
one-entry lag: the output is one entry per key of that sequence (`KeyedList.firsts`).
-/
import HedgeDB.MergeUtils
import HedgeDB.KWayMerge

namespace HedgeDB

open List hiding Cursor lookup
open KeyedList KWayMerge

variable {K : Type*} [LinearOrder K]

/-! ### The algorithm -/

/-- The fields of `merge_config` that decide what is written. -/
structure MergeConfig where
  newIndexId : ℕ
  discardDeletedKeys : Bool := false

/-- `slot_t`: the front entry of a stream, and the stream's position. -/
structure HeapSlot (K : Type*) where
  entry : MergeEntry K
  source : ℕ

/-- `heap_item_t_comparator`: a max-heap under it pops the smallest key first
and, under one key, the highest epoch. -/
def heapItemComparator (lhs rhs : HeapSlot K) : Bool :=
  if lhs.entry.key ≠ rhs.entry.key then rhs.entry.key < lhs.entry.key
  else lhs.entry.epoch < rhs.entry.epoch

/-- The output side of a merge. -/
structure MergeOut (K : Type*) where
  dedup : Deduplicator K := {}
  writeBuffer : MergeWriteBuffer K := {}
  filteredKeys : ℕ := 0

structure MergeState (K : Type*) where
  streams : List (SstStream K)
  heap : List (HeapSlot K)
  out : MergeOut K := {}

/-- The next entry of a stream, refreshing the buffers when its own is empty;
none at the end of the stream. -/
def takeEntry (io : MergeIo K) (streams : List (SstStream K)) (source : ℕ) :
    Option (MergeEntry K × List (SstStream K)) := do
  let s ← streams[source]?
  if s.isEof then none
  else
    let streams' := if s.bufferEmpty then refreshBuffers io streams else streams
    let s' ← streams'[source]?
    let r ← s'.front
    some (⟨r, s.index.epoch⟩, streams'.modify source SstStream.popFront)

/-- One iteration of the loop that fills the heap. -/
def pushFirst (io : MergeIo K) (st : MergeState K) (source : ℕ) : MergeState K :=
  match takeEntry io st.streams source with
  | none => st
  | some (entry, streams) => { st with streams, heap := st.heap ++ [⟨entry, source⟩] }

/-- Initialize the heap with the first entry of each stream. -/
def initHeap (io : MergeIo K) (streams : List (SstStream K)) : MergeState K :=
  (range streams.length).foldl (pushFirst io) { streams := streams, heap := [] }

/-- Put the next entry of the popped slot's stream back into the heap. -/
def refill (io : MergeIo K) (streams : List (SstStream K)) (heap : List (HeapSlot K))
    (source : ℕ) : Expected (List (SstStream K) × List (HeapSlot K)) :=
  match takeEntry io streams source with
  | none => .ok (streams, heap)
  | some (entry, streams') =>
      match valueFromSpan entry.record.value with
      | .error e =>
          .error { msg := "Failed to parse value from index entry during heap initialization: "
            ++ e.msg }
      | .ok _ => .ok (streams', heap ++ [⟨entry, source⟩])

/-- Write an entry, or count it as filtered. -/
def emit (io : MergeIo K) (discard : Bool) (out : MergeOut K) (item : MergeEntry K) :
    Expected (MergeOut K) :=
  if discard && isTombstone item.record.value then
    .ok { out with filteredKeys := out.filteredKeys + 1 }
  else do
    let writeBuffer ← out.writeBuffer.push io item.record
    pure { out with writeBuffer }

/-- Write the entry that is ready, if there is one. -/
def emitReady (io : MergeIo K) (discard : Bool) (out : MergeOut K) : Expected (MergeOut K) :=
  if out.dedup.ready then do
    let (item, dedup) ← out.dedup.pop
    emit io discard { out with dedup } item
  else pure out

/-- The loop, until the heap is empty and at most `fuel` times. -/
def mergeLoop (io : MergeIo K) (discard : Bool) : ℕ → MergeState K → Expected (MergeState K)
  | 0, st => pure st
  | fuel + 1, st =>
      match popHeap heapItemComparator st.heap with
      | none => pure st
      | some (slot, rest) => do
          let dedup := st.out.dedup.push slot.entry
          let (streams, heap) ← refill io st.streams rest slot.source
          let out ← emitReady io discard { st.out with dedup }
          mergeLoop io discard fuel { streams, heap, out }

/-- The drain path: a ready entry, then the one still to be checked. -/
def drain (io : MergeIo K) (discard : Bool) (out : MergeOut K) : Expected (MergeOut K) := do
  let (lastItems, dedup) ←
    if out.dedup.ready then do
      let (item, dedup) ← out.dedup.pop
      pure ([item], dedup)
    else pure ([], out.dedup)
  let (item, dedup) ← dedup.forcePop
  (lastItems ++ [item]).foldlM (emit io discard) { out with dedup }

/-- The epoch of the output: `max_element` under the comparator
`lhs.epoch > rhs.epoch`, so the smallest epoch of the inputs. -/
def outputEpoch (first : Sst K) (rest : List (Sst K)) : ℕ :=
  rest.foldl (fun largest s => if largest > s.epoch then s.epoch else largest) first.epoch

/-- `max_seq_nr` of the output. -/
def outputMaxSeqNr (indices : List (Sst K)) : ℕ :=
  indices.foldl (fun acc s => max acc s.maxSeqNr) 0

structure MergeOutput (K : Type*) where
  sst : Sst K
  indexedKv : ℕ
  deduplicatedKeys : ℕ
  filteredKeys : ℕ

/-- The streams over the inputs after the initial load. -/
def openStreams (io : MergeIo K) (indices : List (Sst K)) : List (SstStream K) :=
  refreshBuffers io (indices.map fun s => { index := s, reader := io.chunks s })

/-- The number of entries of all inputs. -/
def totalKeys (indices : List (Sst K)) : ℕ := (indices.map fun s => s.entries.length).sum

/-- The last flush, and the SST under its footer. -/
def finishMerge (config : MergeConfig) (fileId : ℕ) (first : Sst K) (rest : List (Sst K))
    (out : MergeOut K) : MergeOutput K :=
  let writeBuffer := out.writeBuffer.flush
  { sst :=
      { id := fileId
        indexId := config.newIndexId
        epoch := outputEpoch first rest
        upperBound := first.upperBound
        maxSeqNr := outputMaxSeqNr (first :: rest)
        entries := writeBuffer.file }
    indexedKv := writeBuffer.indexedKv
    deduplicatedKeys := out.dedup.deduplicatedKeys
    filteredKeys := out.filteredKeys }

/-- `index_ops::k_way_merge_async2`, writing a file with id `fileId`.  The
source reads `indices[0]` without a check; no caller passes an empty list. -/
def kWayMergeAsync2 (io : MergeIo K) (config : MergeConfig) (fileId : ℕ) :
    List (Sst K) → Expected (MergeOutput K)
  | [] => .error { msg := "" }
  | first :: rest =>
      let indices := first :: rest
      if ¬ indices.all fun s => s.upperBound = first.upperBound then
        .error { msg := "All indices must have the same partition prefix for merging" }
      else do
        let st ← mergeLoop io config.discardDeletedKeys (totalKeys indices)
          (initHeap io (openStreams io indices))
        let out ← drain io config.discardDeletedKeys st.out
        pure (finishMerge config fileId first rest out)

/-- What a merge may rely on: the chunks of an input are its entries in order
and none is empty, an empty stream counts as running low, and every entry fits
an empty write buffer. -/
@[mk_iff]
structure MergeIo.Serves (io : MergeIo K) (indices : List (Sst K)) : Prop where
  chunks : ∀ s ∈ indices, (io.chunks s).flatMap Chunk.entries = s.entries
  chunk_ne : ∀ s ∈ indices, ∀ chunk ∈ io.chunks s, chunk.entries ≠ []
  low : io.low 0 = true
  fits : ∀ s ∈ indices, ∀ r ∈ s.entries, io.fits [] r = true

instance (io : MergeIo K) (indices : List (Sst K)) : Decidable (io.Serves indices) :=
  decidable_of_iff' _ (MergeIo.serves_iff ..)

/-! ### Forgetting the buffers -/

/-- What is left of the stream at position `i`. -/
def tailOf (streams : List (SstStream K)) (i : ℕ) : List (Record K) :=
  (streams[i]?.map SstStream.remaining).getD []

/-- A heap slot as a cursor over its whole stream. -/
def cursorOf (streams : List (SstStream K)) (slot : HeapSlot K) : Cursor (Record K) :=
  ⟨slot.entry.epoch, slot.entry.record, tailOf streams slot.source⟩

/-- The streams read the SSTs `indices`, in this order. -/
structure Reading (indices : List (Sst K)) (streams : List (SstStream K)) : Prop where
  index : streams.map SstStream.index = indices
  chunk_ne : ∀ s ∈ streams, s.NoEmptyChunk

variable {io : MergeIo K} {indices : List (Sst K)} {streams : List (SstStream K)}

omit [LinearOrder K] in
theorem tailOf_refreshBuffers (io : MergeIo K) (streams : List (SstStream K)) (i : ℕ) :
    tailOf (refreshBuffers io streams) i = tailOf streams i := by
  rw [tailOf, refreshBuffers, getElem?_map, Option.map_map]
  rcases e : streams[i]? with - | s
  · simp [tailOf, e]
  · simp only [Option.map_some, Function.comp_apply, tailOf, e]
    split <;> simp

omit [LinearOrder K] in
theorem Reading.refreshBuffers (h : Reading indices streams) (io : MergeIo K) :
    Reading indices (refreshBuffers io streams) := by
  refine ⟨?_, ?_⟩
  · rw [← h.index, HedgeDB.refreshBuffers, map_map]
    refine map_congr_left fun s _ => ?_
    simp only [Function.comp_apply]
    split <;> simp
  · intro s hs
    obtain ⟨s', hs', rfl⟩ := mem_map.mp hs
    split
    · exact (h.chunk_ne s' hs').refresh
    · exact h.chunk_ne s' hs'

variable {i : ℕ}

section

omit [LinearOrder K]

theorem takeEntry_none (h : Reading indices streams) (ht : tailOf streams i = []) :
    takeEntry io streams i = none := by
  rcases e : streams[i]? with - | s
  · simp [takeEntry, e]
  · have hs := h.chunk_ne s (mem_of_getElem? e)
    have heof : s.isEof = true := (SstStream.isEof_iff hs).mpr (by simpa [tailOf, e] using ht)
    simp [takeEntry, e, heof]

theorem tailOf_modify {s : SstStream K} (e : streams[i]? = some s) (j : ℕ) :
    tailOf (streams.modify i SstStream.popFront) j =
      if i = j then s.popFront.remaining else tailOf streams j := by
  rw [tailOf, getElem?_modify]
  by_cases hij : i = j
  · subst hij
    simp [e]
  · simp [hij, tailOf]

theorem Reading.modify (h : Reading indices streams) {s : SstStream K} (e : streams[i]? = some s)
    (hs : s.popFront.NoEmptyChunk) : Reading indices (streams.modify i SstStream.popFront) := by
  refine ⟨?_, ?_⟩
  · rw [← h.index]
    apply ext_getElem?
    intro j
    rw [getElem?_map, getElem?_modify, getElem?_map]
    rcases streams[j]? with - | s'
    · simp
    · simp only [Option.map_some]
      split <;> simp
  · intro s' hs'
    obtain ⟨j, hj⟩ := mem_iff_getElem?.mp hs'
    rw [getElem?_modify] at hj
    by_cases hij : i = j
    · subst hij
      obtain rfl : s.popFront = s' := by simpa [e] using hj
      exact hs
    · exact h.chunk_ne s' (mem_of_getElem? (by simpa [hij] using hj))

end

variable {r : Record K}

omit [LinearOrder K] in
theorem takeEntry_some (h : Reading indices streams) (hlow : io.low 0 = true)
    {rs : List (Record K)} (ht : tailOf streams i = r :: rs) :
    ∃ epoch streams', takeEntry io streams i = some (⟨r, epoch⟩, streams') ∧
      Reading indices streams' ∧ indices[i]?.map Sst.epoch = some epoch ∧
      ∀ j, tailOf streams' j = if i = j then rs else tailOf streams j := by
  rcases e : streams[i]? with - | s
  · simp [tailOf, e] at ht
  have hs := h.chunk_ne s (mem_of_getElem? e)
  have hrem : s.remaining = r :: rs := by simpa [tailOf, e] using ht
  have heof : s.isEof = false := by
    rw [← Bool.not_eq_true, SstStream.isEof_iff hs, hrem]
    exact cons_ne_nil _ _
  have hepoch : indices[i]?.map Sst.epoch = some s.index.epoch := by
    rw [← h.index, getElem?_map, e]; rfl
  -- the streams after the refresh, if there was one, still show the same tails
  obtain ⟨streams', hstreams', hR, htails, s', e', hb, hrem'⟩ :
      ∃ streams', (if s.bufferEmpty then refreshBuffers io streams else streams) = streams' ∧
        Reading indices streams' ∧ (∀ j, tailOf streams' j = tailOf streams j) ∧
        ∃ s', streams'[i]? = some s' ∧ s'.bufferEmpty = false ∧ s'.remaining = r :: rs := by
    by_cases hb : s.bufferEmpty = true
    · refine ⟨refreshBuffers io streams, by rw [if_pos hb], h.refreshBuffers io,
        tailOf_refreshBuffers io streams, s.refresh, ?_, ?_, by simpa using hrem⟩
      · have hsize : s.size = 0 := by
          rw [SstStream.size, isEmpty_iff.mp hb]; rfl
        rw [refreshBuffers, getElem?_map, e, Option.map_some, hsize, if_pos hlow]
      · rcases er : s.reader with - | ⟨chunk, rest⟩
        · simp [SstStream.isEof, er, hb] at heof
        · simp [SstStream.refresh, er, SstStream.bufferEmpty]
    · exact ⟨streams, by rw [if_neg hb], h, fun _ => rfl, s, e, by simpa using hb, hrem⟩
  obtain ⟨r', rs', hrr, hfront, hpop, hpop'⟩ :=
    SstStream.front_popFront (hR.chunk_ne s' (mem_of_getElem? e')) hb
  obtain ⟨rfl, rfl⟩ := cons.inj (hrem'.symm.trans hrr)
  refine ⟨s.index.epoch, streams'.modify i SstStream.popFront, ?_, hR.modify e' hpop', hepoch, ?_⟩
  · simp only [takeEntry, e, Option.bind_eq_bind, Option.bind_some, heof, Bool.false_eq_true,
      if_false, hstreams', e', hfront]
  · intro j
    rw [tailOf_modify e', hpop, htails]

/-- The heap slots belong to different streams and carry their epochs. -/
structure HeapOk (indices : List (Sst K)) (streams : List (SstStream K))
    (heap : List (HeapSlot K)) : Prop where
  reading : Reading indices streams
  epochs : ∀ slot ∈ heap, indices[slot.source]?.map Sst.epoch = some slot.entry.epoch
  sources : heap.Pairwise fun a b => a.source ≠ b.source

omit [LinearOrder K] in
theorem map_cursorOf_congr {streams' : List (SstStream K)} {heap : List (HeapSlot K)}
    (h : ∀ slot ∈ heap, tailOf streams' slot.source = tailOf streams slot.source) :
    heap.map (cursorOf streams') = heap.map (cursorOf streams) :=
  map_congr_left fun slot hslot => by rw [cursorOf, cursorOf, h slot hslot]

omit [LinearOrder K] in
theorem refill_eq (hlow : io.low 0 = true) {slot : HeapSlot K} {rest : List (HeapSlot K)}
    (h : HeapOk indices streams (slot :: rest))
    (hdec : ∀ r ∈ tailOf streams slot.source, Decodable r.value) :
    ∃ streams' heap', refill io streams rest slot.source = .ok (streams', heap') ∧
      HeapOk indices streams' heap' ∧
      heap'.map (cursorOf streams') =
        pushBack (cursorOf streams slot) (rest.map (cursorOf streams)) := by
  obtain ⟨hne, hrest⟩ := pairwise_cons.mp h.sources
  have hepochs : ∀ s ∈ rest, indices[s.source]?.map Sst.epoch = some s.entry.epoch :=
    fun s hs => h.epochs s (mem_cons_of_mem _ hs)
  rcases ht : tailOf streams slot.source with - | ⟨r, rs⟩
  · refine ⟨streams, rest, by simp [refill, takeEntry_none h.reading ht],
      ⟨h.reading, hepochs, hrest⟩, ?_⟩
    simp [pushBack, cursorOf, ht]
  · obtain ⟨epoch, streams', htake, hR, hepoch, htails⟩ := takeEntry_some h.reading hlow ht
    obtain rfl : epoch = slot.entry.epoch :=
      Option.some.inj (hepoch.symm.trans (h.epochs slot mem_cons_self))
    obtain ⟨v, hv⟩ := hdec r (ht ▸ mem_cons_self)
    refine ⟨streams', rest ++ [⟨⟨r, slot.entry.epoch⟩, slot.source⟩],
      by simp [refill, htake, hv], ⟨hR, ?_, ?_⟩, ?_⟩
    · intro s hs
      rcases mem_append.mp hs with hs' | hs'
      · exact hepochs s hs'
      · obtain rfl := mem_singleton.mp hs'
        exact hepoch
    · refine pairwise_append.mpr ⟨hrest, by simp, ?_⟩
      intro a ha b hb
      obtain rfl := mem_singleton.mp hb
      exact (hne a ha).symm
    · have hothers : rest.map (cursorOf streams') = rest.map (cursorOf streams) :=
        map_cursorOf_congr fun s hs => by rw [htails, if_neg (hne s hs)]
      simp [pushBack, cursorOf, ht, htails, ← hothers]

/-- An iteration as the deduplicator and the writer see it. -/
def consume (io : MergeIo K) (discard : Bool) (out : MergeOut K) (item : MergeEntry K) :
    Expected (MergeOut K) :=
  emitReady io discard { out with dedup := out.dedup.push item }

def toMergeEntry (item : Record K × ℕ) : MergeEntry K := ⟨item.1, item.2⟩

theorem heapItemComparator_eq (streams : List (SstStream K)) (a b : HeapSlot K) :
    heapItemComparator a b =
      cursorLt Record.key (cursorOf streams a) (cursorOf streams b) := rfl

theorem mergeLoop_eq (hlow : io.low 0 = true) (discard : Bool) (fuel : ℕ) (st : MergeState K)
    (h : HeapOk indices st.streams st.heap)
    (hdec : ∀ c ∈ st.heap.map (cursorOf st.streams), ∀ r ∈ c.tail, Decodable r.value) :
    (mergeLoop io discard fuel st).map MergeState.out =
      ((mergeCursors Record.key fuel (st.heap.map (cursorOf st.streams))).map
        toMergeEntry).foldlM (consume io discard) st.out := by
  induction fuel generalizing st with
  | zero => rfl
  | succ fuel ih =>
    rw [mergeLoop, mergeCursors,
      popHeap_map (cursorOf st.streams) (heapItemComparator_eq st.streams)]
    rcases e : popHeap heapItemComparator st.heap with - | ⟨slot, rest⟩
    · rfl
    · -- the popped slot, refilled, against the cursor pushed back
      have hperm : st.heap.Perm (slot :: rest) :=
        (popHeap_spec
          (fun a b => cursorLt_asymm (cursorOf st.streams a) (cursorOf st.streams b))
          (fun a b c => cursorLt_false_trans (cursorOf st.streams a) (cursorOf st.streams b)
            (cursorOf st.streams c)) e).1
      have hslot : HeapOk indices st.streams (slot :: rest) :=
        ⟨h.reading, fun s hs => h.epochs s (hperm.symm.subset hs),
          (hperm.pairwise_iff fun hab => hab.symm).mp h.sources⟩
      have hdec' : ∀ c ∈ (slot :: rest).map (cursorOf st.streams),
          ∀ r ∈ c.tail, Decodable r.value :=
        fun c hc => hdec c ((hperm.symm.map _).subset hc)
      obtain ⟨streams', heap', hrefill, hok, hcursors⟩ :=
        refill_eq hlow hslot (hdec' _ mem_cons_self)
      have hdecAfter : ∀ c ∈ heap'.map (cursorOf streams'),
          ∀ r ∈ c.tail, Decodable r.value := by
        rw [hcursors]
        exact pushBack_tail hdec'
      simp only [hrefill, Option.map_some, map_cons, foldlM_cons]
      rw [← hcursors]
      change ((consume io discard st.out slot.entry >>= fun out =>
        mergeLoop io discard fuel ⟨streams', heap', out⟩).map MergeState.out) =
          consume io discard st.out slot.entry >>= _
      rcases consume io discard st.out slot.entry with err | out
      · rfl
      · exact ih ⟨streams', heap', out⟩ hok hdecAfter

/-- The cursor of an SST before anything was read; none if it is empty. -/
def Sst.cursor (s : Sst K) : Option (Cursor (Record K)) :=
  match s.entries with
  | [] => none
  | r :: rs => some ⟨s.epoch, r, rs⟩

variable {s : Sst K}

omit [LinearOrder K] in
theorem Sst.cursor_mem {c : Cursor (Record K)} (h : s.cursor = some c) :
    c.prio = s.epoch ∧ s.entries = c.head :: c.tail := by
  rcases e : s.entries with - | ⟨r, rs⟩
  · simp [cursor, e] at h
  · obtain rfl : (⟨s.epoch, r, rs⟩ : Cursor (Record K)) = c := by simpa [cursor, e] using h
    exact ⟨rfl, rfl⟩

omit [LinearOrder K] in
theorem initHeap_eq (hlow : io.low 0 = true) (h : Reading indices streams)
    (hfull : ∀ i, tailOf streams i = (indices[i]?.map Sst.entries).getD []) :
    HeapOk indices (initHeap io streams).streams (initHeap io streams).heap ∧
      (initHeap io streams).heap.map (cursorOf (initHeap io streams).streams) =
        indices.filterMap Sst.cursor ∧
      (initHeap io streams).out = {} := by
  have hlen : streams.length = indices.length := by rw [← h.index, length_map]
  -- the first `n` streams are in the heap, the others are untouched
  suffices hn : ∀ n ≤ indices.length, ∃ streams' heap,
      (range n).foldl (pushFirst io) { streams := streams, heap := [] } =
        { streams := streams', heap := heap } ∧
      HeapOk indices streams' heap ∧ (∀ slot ∈ heap, slot.source < n) ∧
      (∀ j, n ≤ j → tailOf streams' j = tailOf streams j) ∧
      heap.map (cursorOf streams') = (indices.take n).filterMap Sst.cursor by
    obtain ⟨streams', heap, he, hok, -, -, hc⟩ := hn _ le_rfl
    rw [take_length] at hc
    rw [initHeap, hlen, he]
    exact ⟨hok, hc, rfl⟩
  intro n hn
  induction n with
  | zero => exact ⟨streams, [], rfl, ⟨h, by simp, Pairwise.nil⟩, by simp, by simp, by simp⟩
  | succ n ih =>
    obtain ⟨streams', heap, he, hok, hlt, htails, hc⟩ := ih (by omega)
    obtain ⟨s, hs⟩ : ∃ s, indices[n]? = some s := ⟨indices[n], getElem?_eq_getElem hn⟩
    have htail : tailOf streams' n = s.entries := by
      rw [htails n le_rfl, hfull, hs]; rfl
    have htake : indices.take (n + 1) = indices.take n ++ [s] := by
      rw [take_add_one, hs]; rfl
    rw [range_succ, foldl_append, he, foldl_cons, foldl_nil, htake, filterMap_append]
    rcases e : s.entries with - | ⟨r, rs⟩
    · rw [e] at htail
      refine ⟨streams', heap, ?_, hok, fun slot hslot => (hlt slot hslot).trans n.lt_succ_self,
        fun j hj => htails j (by omega), ?_⟩
      · simp only [pushFirst, takeEntry_none hok.reading htail]
      · simp [Sst.cursor, e, hc]
    · rw [e] at htail
      obtain ⟨epoch, streams'', hentry, hR, hepoch, htails'⟩ :=
        takeEntry_some hok.reading hlow htail
      have hepoch' : s.epoch = epoch := by simpa [hs] using hepoch
      have hne : ∀ slot ∈ heap, n ≠ slot.source := fun slot hslot => (hlt slot hslot).ne'
      refine ⟨streams'', heap ++ [⟨⟨r, epoch⟩, n⟩], ?_, ⟨hR, ?_, ?_⟩, ?_, ?_, ?_⟩
      · simp only [pushFirst, hentry]
      · intro slot hslot
        rcases mem_append.mp hslot with h' | h'
        · exact hok.epochs slot h'
        · obtain rfl := mem_singleton.mp h'
          exact hepoch
      · refine pairwise_append.mpr ⟨hok.sources, by simp, ?_⟩
        intro a ha b hb
        obtain rfl := mem_singleton.mp hb
        exact (hne a ha).symm
      · intro slot hslot
        rcases mem_append.mp hslot with h' | h'
        · exact (hlt slot h').trans n.lt_succ_self
        · obtain rfl := mem_singleton.mp h'
          exact n.lt_succ_self
      · intro j hj
        rw [htails', if_neg (by omega), htails j (by omega)]
      · have hothers : heap.map (cursorOf streams'') = heap.map (cursorOf streams') :=
          map_cursorOf_congr fun slot hslot => by rw [htails', if_neg (hne slot hslot)]
        simp [hothers, hc, Sst.cursor, e, cursorOf, htails', hepoch']

/-! ### Forgetting the lag of the deduplicator -/

/-- An entry that is not dropped as a tombstone. -/
def kept (discard : Bool) (item : MergeEntry K) : Bool :=
  !(discard && isTombstone item.record.value)

omit [LinearOrder K] in
theorem kept_iff {discard : Bool} {item : MergeEntry K} :
    kept discard item = true ↔
      ¬ (discard = true ∧ isTombstone item.record.value = true) := by
  rw [kept, Bool.not_eq_true', ← Bool.not_eq_true, Bool.and_eq_true]

/-- From `out` to `out'` exactly the kept ones among `items` were written, and
the others counted as filtered. -/
structure Wrote (discard : Bool) (items : List (MergeEntry K)) (out out' : MergeOut K) :
    Prop where
  contents : out'.writeBuffer.contents =
    out.writeBuffer.contents ++ (items.filter (kept discard)).map MergeEntry.record
  indexedKv : out'.writeBuffer.indexedKv =
    out.writeBuffer.indexedKv + (items.filter (kept discard)).length
  filteredKeys : out'.filteredKeys + (items.filter (kept discard)).length =
    out.filteredKeys + items.length

variable {discard : Bool}

omit [LinearOrder K] in
theorem Wrote.append {xs ys : List (MergeEntry K)} {a b c : MergeOut K}
    (h : Wrote discard xs a b) (h' : Wrote discard ys b c) :
    Wrote discard (xs ++ ys) a c := by
  refine ⟨?_, ?_, ?_⟩
  · rw [h'.contents, h.contents, filter_append, map_append, append_assoc]
  · rw [h'.indexedKv, h.indexedKv, filter_append, length_append, Nat.add_assoc]
  · have h1 := h.filteredKeys
    have h2 := h'.filteredKeys
    rw [filter_append, length_append, length_append]
    omega

omit [LinearOrder K] in
theorem emit_ok (io : MergeIo K) (discard : Bool) (out : MergeOut K) {item : MergeEntry K}
    (hfits : io.fits [] item.record = true) :
    ∃ out', emit io discard out item = .ok out' ∧ Wrote discard [item] out out' ∧
      out'.dedup = out.dedup := by
  by_cases hd : (discard && isTombstone item.record.value) = true
  · have hk : kept discard item = false := by simp [kept, hd]
    exact ⟨{ out with filteredKeys := out.filteredKeys + 1 }, by rw [emit, if_pos hd],
      ⟨by simp [hk], by simp [hk], by simp [hk]⟩, rfl⟩
  · have hk : kept discard item = true := by
      rw [kept, Bool.eq_false_iff.mpr hd]; rfl
    obtain ⟨b, hpush, hcontents, hindexed⟩ := out.writeBuffer.push_eq hfits
    exact ⟨{ out with writeBuffer := b }, by rw [emit, if_neg hd, hpush]; rfl,
      ⟨by simp [hk, hcontents], by simp [hk, hindexed], by simp [hk]⟩, rfl⟩

/-- With `c` waiting in the deduplicator, consuming `l` and draining writes `c`
and then one entry for each further key. -/
theorem consume_drain (io : MergeIo K) (discard : Bool) {l : List (MergeEntry K)}
    {c : MergeEntry K} (out : MergeOut K)
    (hready : out.dedup.readyItem = none) (hc : out.dedup.toBeCheckedItem = some c)
    (hfits : ∀ item ∈ c :: l, io.fits [] item.record = true) :
    ∃ out', (l.foldlM (consume io discard) out >>= drain io discard) = .ok out' ∧
      Wrote discard (c :: firsts MergeEntry.key (some c.key) l) out out' ∧
      out'.dedup.deduplicatedKeys + (firsts MergeEntry.key (some c.key) l).length =
        out.dedup.deduplicatedKeys + l.length := by
  obtain ⟨⟨check, ready, n⟩, b, f⟩ := out
  dsimp only at hready hc
  subst hready hc
  induction l generalizing c n b f with
  | nil =>
    obtain ⟨out', hemit, hwrote, hdedup⟩ := emit_ok io discard
      { dedup := { deduplicatedKeys := n }, writeBuffer := b, filteredKeys := f }
      (hfits c mem_cons_self)
    refine ⟨out', ?_, ⟨hwrote.contents, hwrote.indexedKv, hwrote.filteredKeys⟩, by simp [hdedup, firsts]⟩
    change (emit io discard _ c >>= pure) = _
    rw [hemit]
    rfl
  | cons a l ih =>
    rw [foldlM_cons, firsts]
    by_cases hkey : c.key = a.key
    · -- a duplicate: dropped and counted
      have hstep : consume io discard
          { dedup := ⟨some c, none, n⟩, writeBuffer := b, filteredKeys := f } a =
            .ok { dedup := ⟨some c, none, n + 1⟩, writeBuffer := b, filteredKeys := f } := by
        simp [consume, Deduplicator.push, hkey, emitReady, Deduplicator.ready, pure, Except.pure]
      obtain ⟨out', hrun, hwrote, hcount⟩ := ih (n := n + 1) (b := b) (f := f)
        fun item h => hfits item (by
          rcases mem_cons.mp h with rfl | h'
          · exact mem_cons_self
          · exact mem_cons_of_mem _ (mem_cons_of_mem _ h'))
      rw [if_pos (congrArg some hkey), hstep]
      refine ⟨out', hrun, ⟨hwrote.contents, hwrote.indexedKv, hwrote.filteredKeys⟩, ?_⟩
      dsimp only at hcount ⊢
      rw [length_cons]
      omega
    · -- another key: `c` is written and `a` waits
      obtain ⟨out₁, hemit, hwrote₁, hdedup₁⟩ := emit_ok io discard
        { dedup := ⟨some a, none, n⟩, writeBuffer := b, filteredKeys := f }
        (hfits c mem_cons_self)
      have hstep : consume io discard
          { dedup := ⟨some c, none, n⟩, writeBuffer := b, filteredKeys := f } a = .ok out₁ := by
        simpa [consume, Deduplicator.push, hkey, emitReady, Deduplicator.ready,
          Deduplicator.pop, bind, Except.bind] using hemit
      obtain ⟨d, b₁, f₁⟩ := out₁
      dsimp only at hdedup₁
      subst hdedup₁
      obtain ⟨out', hrun, hwrote, hcount⟩ := ih (c := a) (n := n) (b := b₁) (f := f₁)
        fun item h => hfits item (mem_cons_of_mem _ h)
      rw [if_neg fun h => hkey (Option.some.inj h), hstep]
      refine ⟨out', hrun, ?_, ?_⟩
      · have := hwrote₁.append hwrote
        exact ⟨this.contents, this.indexedKv, this.filteredKeys⟩
      · dsimp only at hcount ⊢
        simp only [length_cons]
        omega

/-! ### The merge -/

/-- `r` is the version of its key in the input of highest epoch that has the
key. -/
def Newest (indices : List (Sst K)) (r : Record K) : Prop :=
  ∃ s ∈ indices, r ∈ s.entries ∧
    ∀ s' ∈ indices, ∀ r' ∈ s'.entries, r'.key = r.key → s'.epoch ≤ s.epoch

/-- The output of a merge of `indices`: one entry for a key, and every entry counted. -/
structure MergeWritten (indices : List (Sst K)) (out : MergeOutput K) : Prop where
  sorted : out.sst.Sorted
  indexedKv : out.indexedKv = out.sst.entries.length
  count : totalKeys indices =
    out.sst.entries.length + out.deduplicatedKeys + out.filteredKeys

/-- What a merge of `indices` leaves in it. -/
structure MergedFrom (discard : Bool) (indices : List (Sst K)) (out : MergeOutput K) : Prop
    extends MergeWritten indices out where
  mem_iff : ∀ r, r ∈ out.sst.entries ↔
    Newest indices r ∧ ¬ (discard = true ∧ isTombstone r.value = true)

/-- The inputs of one merge: one partition, strictly sorted, decodable values. -/
structure MergeInputs (indices : List (Sst K)) : Prop where
  partition : ∀ s ∈ indices, ∀ s' ∈ indices, s.upperBound = s'.upperBound
  sorted : ∀ s ∈ indices, s.Sorted
  decodable : ∀ s ∈ indices, s.AllDecodable

/-- And distinct epochs. -/
structure Mergeable (indices : List (Sst K)) : Prop extends MergeInputs indices where
  epochs : indices.Pairwise fun s s' => s.epoch ≠ s'.epoch

/-- What the order of a merge rests on. -/
structure MergeSorted (indices : List (Sst K)) : Prop where
  sorted : ∀ s ∈ indices, s.Sorted
  epochs : indices.Pairwise fun s s' => s.epoch ≠ s'.epoch

theorem Mergeable.mergeSorted (h : Mergeable indices) : MergeSorted indices := ⟨h.sorted, h.epochs⟩

omit [LinearOrder K] in
theorem cursors_items (indices : List (Sst K)) :
    (indices.filterMap Sst.cursor).flatMap Cursor.items =
      indices.flatMap fun s => s.entries.map (·, s.epoch) := by
  induction indices with
  | nil => rfl
  | cons s indices ih =>
    rw [flatMap_cons, ← ih]
    rcases e : s.entries with - | ⟨r, rs⟩
    · simp [Sst.cursor, e]
    · simp [Sst.cursor, e, Cursor.items]

omit [LinearOrder K] in
theorem size_cursors (indices : List (Sst K)) :
    size (indices.filterMap Sst.cursor) = totalKeys indices := by
  rw [size, cursors_items, length_flatMap]
  simp [totalKeys]

theorem ascending_cursors (h : ∀ s ∈ indices, s.Sorted) :
    Ascending Record.key (indices.filterMap Sst.cursor) := by
  intro c hc
  obtain ⟨s, hs, hsc⟩ := mem_filterMap.mp hc
  exact (Sst.cursor_mem hsc).2 ▸ h s hs

theorem MergeSorted.cursors (h : MergeSorted indices) :
    KWayMerge.Sorted Record.key (indices.filterMap Sst.cursor) := by
  refine ⟨ascending_cursors h.sorted, Pairwise.filterMap Sst.cursor ?_ h.epochs⟩
  intro s s' hne c hc c' hc'
  rw [(Sst.cursor_mem hc).1, (Sst.cursor_mem hc').1]
  exact hne

omit [LinearOrder K] in
theorem MergeIo.Serves.reading (h : io.Serves indices) :
    Reading indices (openStreams io indices) ∧
      ∀ i, tailOf (openStreams io indices) i = (indices[i]?.map Sst.entries).getD [] := by
  have hR : Reading indices
      (indices.map fun s => ({ index := s, reader := io.chunks s } : SstStream K)) := by
    refine ⟨map_map.trans (map_id indices), ?_⟩
    intro s hs
    obtain ⟨s', hs', rfl⟩ := mem_map.mp hs
    exact h.chunk_ne s' hs'
  refine ⟨hR.refreshBuffers io, fun i => ?_⟩
  rw [openStreams, tailOf_refreshBuffers, tailOf, getElem?_map]
  rcases e : indices[i]? with - | s
  · rfl
  · exact h.chunks s (mem_of_getElem? e)

/-- The merged sequence of the inputs, as the deduplicator sees it. -/
def mergedSequence (indices : List (Sst K)) : List (Record K × ℕ) :=
  mergeCursors Record.key (totalKeys indices)
    (indices.filterMap Sst.cursor)

theorem mergedSequence_perm (indices : List (Sst K)) :
    (mergedSequence indices).Perm (indices.flatMap fun s => s.entries.map (·, s.epoch)) :=
  cursors_items indices ▸ mergeCursors_perm (size_cursors indices).le

theorem MergeSorted.mergedSequence_sorted (h : MergeSorted indices) :
    (mergedSequence indices).Pairwise (Before Record.key) :=
  mergeCursors_sorted h.cursors (size_cursors indices).le

theorem mem_mergedSequence {epoch : ℕ} :
    (r, epoch) ∈ mergedSequence indices ↔ ∃ s ∈ indices, r ∈ s.entries ∧ s.epoch = epoch := by
  rw [(mergedSequence_perm indices).mem_iff, mem_flatMap]
  simp

theorem MergeSorted.mem_firsts (h : MergeSorted indices) :
    (∃ epoch, (r, epoch) ∈ firsts (fun p => p.1.key) none (mergedSequence indices)) ↔
      Newest indices r := by
  simp only [mem_firsts_iff (sorted_le h.mergedSequence_sorted),
    lookup_sorted_iff h.mergedSequence_sorted]
  constructor
  · rintro ⟨epoch, hmem, -, hmax⟩
    obtain ⟨s, hs, hr, rfl⟩ := mem_mergedSequence.mp hmem
    refine ⟨s, hs, hr, fun s' hs' r' hr' hk => ?_⟩
    exact hmax (r', s'.epoch) (mem_mergedSequence.mpr ⟨s', hs', hr', rfl⟩) hk
  · rintro ⟨s, hs, hr, hmax⟩
    refine ⟨s.epoch, mem_mergedSequence.mpr ⟨s, hs, hr, rfl⟩, trivial, ?_⟩
    rintro ⟨r', epoch'⟩ hy hk
    obtain ⟨s', hs', hr', rfl⟩ := mem_mergedSequence.mp hy
    exact hmax s' hs' r' hr' hk

theorem merge_run (h : MergeInputs indices) (hio : io.Serves indices)
    (hne : ∃ s ∈ indices, s.entries ≠ []) (discard : Bool) :
    ∃ st out,
      mergeLoop io discard (totalKeys indices) (initHeap io (openStreams io indices)) = .ok st ∧
      drain io discard st.out = .ok out ∧
      Wrote discard ((firsts (fun p => p.1.key) none (mergedSequence indices)).map toMergeEntry)
        {} out ∧
      out.dedup.deduplicatedKeys +
          (firsts (fun p => p.1.key) none (mergedSequence indices)).length =
        totalKeys indices := by
  obtain ⟨hR, hfull⟩ := hio.reading
  obtain ⟨hok, hcursors, hout⟩ := initHeap_eq hio.low hR hfull
  have hdec : ∀ c ∈ indices.filterMap Sst.cursor, ∀ r ∈ c.tail, Decodable r.value := by
    intro c hc r hr
    obtain ⟨s, hs, hsc⟩ := mem_filterMap.mp hc
    exact h.decodable s hs r ((Sst.cursor_mem hsc).2 ▸ mem_cons_of_mem _ hr)
  have hloop := mergeLoop_eq hio.low discard (totalKeys indices) _ hok (hcursors.symm ▸ hdec)
  rw [hcursors, hout] at hloop
  change _ = ((mergedSequence indices).map toMergeEntry).foldlM (consume io discard) {} at hloop
  have hfits : ∀ item ∈ (mergedSequence indices).map toMergeEntry,
      io.fits [] item.record = true := by
    intro item hitem
    obtain ⟨⟨r, epoch⟩, hmem, rfl⟩ := mem_map.mp hitem
    obtain ⟨s, hs, hr, -⟩ := mem_mergedSequence.mp hmem
    exact hio.fits s hs r hr
  have hlen : (mergedSequence indices).length = totalKeys indices :=
    (mergeCursors_perm (size_cursors indices).le).length_eq.trans (size_cursors indices)
  rcases e : mergedSequence indices with - | ⟨c, l⟩
  · -- impossible: some input has an entry
    obtain ⟨s, hs, hs'⟩ := hne
    obtain ⟨r, hr⟩ := exists_mem_of_ne_nil _ hs'
    have hmem : (r, s.epoch) ∈ mergedSequence indices := mem_mergedSequence.mpr ⟨s, hs, hr, rfl⟩
    rw [e] at hmem
    cases hmem
  · rw [e] at hloop hfits hlen
    rw [map_cons, foldlM_cons] at hloop
    -- the first entry only waits in the deduplicator
    change _ = (l.map toMergeEntry).foldlM (consume io discard)
      { dedup := ⟨some (toMergeEntry c), none, 0⟩ } at hloop
    obtain ⟨out, hrun, hwrote, hcount⟩ := consume_drain io discard
      (l := l.map toMergeEntry) (c := toMergeEntry c)
      { dedup := ⟨some (toMergeEntry c), none, 0⟩ } rfl rfl hfits
    rw [← hloop] at hrun
    rw [firsts_map] at hwrote hcount
    rw [length_map, length_map] at hcount
    rcases est : mergeLoop io discard (totalKeys indices)
      (initHeap io (openStreams io indices)) with err | st
    · rw [est] at hrun
      cases hrun
    · rw [est] at hrun
      refine ⟨st, out, rfl, hrun, ⟨hwrote.contents, hwrote.indexedKv, hwrote.filteredKeys⟩, ?_⟩
      have hcount' : out.dedup.deduplicatedKeys +
          (firsts (fun p => p.1.key) (some c.1.key) l).length = 0 + l.length := hcount
      rw [firsts, if_neg (by simp), length_cons, ← hlen, length_cons]
      omega

/-- **A merge succeeds**, and if the epochs are distinct it keeps the newest version of every
key. -/
theorem kWayMergeAsync2_ok {first : Sst K} {rest : List (Sst K)}
    (h : MergeInputs (first :: rest)) (hio : io.Serves (first :: rest))
    (hne : ∃ s ∈ first :: rest, s.entries ≠ []) (config : MergeConfig) (fileId : ℕ) :
    ∃ out, kWayMergeAsync2 io config fileId (first :: rest) =
        .ok (finishMerge config fileId first rest out) ∧
      MergeWritten (first :: rest) (finishMerge config fileId first rest out) ∧
      (MergeSorted (first :: rest) → MergedFrom config.discardDeletedKeys (first :: rest)
        (finishMerge config fileId first rest out)) := by
  obtain ⟨st, out, hloop, hdrain, hwrote, hcount⟩ :=
    merge_run h hio hne config.discardDeletedKeys
  have hall : (first :: rest).all (fun s => s.upperBound = first.upperBound) = true := by
    simpa using fun s hs => h.partition s (mem_cons_of_mem _ hs) first mem_cons_self
  have hfile : out.writeBuffer.flush.file =
      ((firsts (fun p => p.1.key) none (mergedSequence (first :: rest))).filter
        fun p => kept config.discardDeletedKeys (toMergeEntry p)).map Prod.fst := by
    have hcontents := hwrote.contents
    rw [filter_map, map_map] at hcontents
    exact hcontents
  have hindexed : out.writeBuffer.indexedKv = out.writeBuffer.flush.file.length := by
    rw [hwrote.indexedKv, hfile, filter_map, length_map, length_map]
    exact Nat.zero_add _
  have hwritten : MergeWritten (first :: rest) (finishMerge config fileId first rest out) := by
    refine ⟨?_, hindexed, ?_⟩
    · change out.writeBuffer.flush.file.Pairwise _
      rw [hfile]
      have hle := mergeCursors_le (ascending_cursors h.sorted) (size_cursors (first :: rest)).le
      exact pairwise_map.mpr ((firsts_strict none hle).filter _)
    · have hfiltered := hwrote.filteredKeys
      have hindexed' := hwrote.indexedKv
      rw [length_map] at hfiltered
      change totalKeys (first :: rest) = out.writeBuffer.flush.file.length +
        out.dedup.deduplicatedKeys + out.filteredKeys
      rw [← hindexed]
      change out.writeBuffer.indexedKv = 0 + _ at hindexed'
      change out.filteredKeys + _ = 0 + _ at hfiltered
      omega
  refine ⟨out, ?_, hwritten, fun hs => ⟨hwritten, fun r => ?_⟩⟩
  · rw [kWayMergeAsync2, if_neg (by rw [hall]; simp)]
    simp only [hloop, bind, Except.bind, hdrain]
    rfl
  · change r ∈ out.writeBuffer.flush.file ↔ _
    rw [hfile, ← hs.mem_firsts, mem_map]
    constructor
    · rintro ⟨p, hp, rfl⟩
      obtain ⟨hmem, hkept⟩ := mem_filter.mp hp
      exact ⟨⟨p.2, hmem⟩, kept_iff.mp hkept⟩
    · rintro ⟨⟨epoch, hmem⟩, hkept⟩
      exact ⟨(r, epoch), mem_filter.mpr ⟨hmem, kept_iff.mpr hkept⟩, rfl⟩

theorem MergeSorted.exists_newest (h : MergeSorted indices) (hs : s ∈ indices)
    (hr : r ∈ s.entries) : ∃ r', Newest indices r' ∧ r'.key = r.key := by
  have hmem : (r, s.epoch) ∈ mergedSequence indices := mem_mergedSequence.mpr ⟨s, hs, hr, rfl⟩
  rcases e : lookup (fun p : Record K × ℕ => p.1.key) (mergedSequence indices) r.key with - | p
  · exact absurd rfl (lookup_eq_none_iff.mp e _ hmem)
  · have hkey : p.1.key = r.key := (lookup_mem e).2
    refine ⟨p.1, h.mem_firsts.mp ⟨p.2, ?_⟩, hkey⟩
    rw [mem_firsts_iff (sorted_le h.mergedSequence_sorted), hkey]
    exact e

section

omit [LinearOrder K]

theorem le_outputMaxSeqNr (hs : s ∈ indices) : s.maxSeqNr ≤ outputMaxSeqNr indices :=
  (le_foldl_max Sst.maxSeqNr indices 0).2 s hs

theorem outputMaxSeqNr_mem (hne : indices ≠ []) :
    ∃ s ∈ indices, outputMaxSeqNr indices = s.maxSeqNr :=
  foldl_max_mem Sst.maxSeqNr hne

theorem outputEpoch_spec (first : Sst K) (rest : List (Sst K)) :
    (∀ s ∈ first :: rest, outputEpoch first rest ≤ s.epoch) ∧
      ∃ s ∈ first :: rest, outputEpoch first rest = s.epoch := by
  induction rest generalizing first with
  | nil => simp [outputEpoch]
  | cons a rest ih =>
    -- the accumulator after `a` is the epoch of `first` or of `a`
    by_cases h : first.epoch > a.epoch
    · have hstep : outputEpoch first (a :: rest) = outputEpoch a rest := by
        simp [outputEpoch, h]
      obtain ⟨hle, s, hs, he⟩ := ih a
      rw [hstep]
      refine ⟨fun t ht => ?_, s, mem_cons_of_mem _ hs, he⟩
      rcases mem_cons.mp ht with rfl | ht'
      · exact (hle a mem_cons_self).trans h.le
      · exact hle t ht'
    · have hstep : outputEpoch first (a :: rest) = outputEpoch first rest := by
        simp [outputEpoch, h]
      obtain ⟨hle, s, hs, he⟩ := ih first
      rw [hstep]
      refine ⟨fun t ht => ?_, s, ?_, he⟩
      · rcases mem_cons.mp ht with rfl | ht'
        · exact hle _ mem_cons_self
        · rcases mem_cons.mp ht' with rfl | hrest
          · exact (hle first mem_cons_self).trans (not_lt.mp h)
          · exact hle t (mem_cons_of_mem _ hrest)
      · rcases mem_cons.mp hs with rfl | hrest
        · exact mem_cons_self
        · exact mem_cons_of_mem _ (mem_cons_of_mem _ hrest)

end

theorem kWayMergeAsync2_empty {first : Sst K} {rest : List (Sst K)}
    (hio : io.Serves (first :: rest)) (hempty : ∀ s ∈ first :: rest, s.entries = [])
    (config : MergeConfig) (fileId : ℕ) (out : MergeOutput K) :
    kWayMergeAsync2 io config fileId (first :: rest) ≠ .ok out := by
  have htotal : totalKeys (first :: rest) = 0 := by
    have hnone : (first :: rest).filterMap Sst.cursor = [] :=
      filterMap_eq_nil_iff.mpr fun s hs => by simp [Sst.cursor, hempty s hs]
    rw [← size_cursors, hnone]
    rfl
  obtain ⟨hR, hfull⟩ := hio.reading
  obtain ⟨-, -, hout⟩ := initHeap_eq hio.low hR hfull
  intro h
  rw [kWayMergeAsync2] at h
  split at h
  · cases h
  · rw [htotal] at h
    change (drain io config.discardDeletedKeys
      (initHeap io (openStreams io (first :: rest))).out >>= _) = _ at h
    rw [hout] at h
    cases h

theorem kWayMergeAsync2_written {config : MergeConfig} {fileId : ℕ} {out : MergeOutput K}
    (h : MergeInputs indices) (hio : io.Serves indices)
    (hok : kWayMergeAsync2 io config fileId indices = .ok out) :
    MergeWritten indices out ∧
      (MergeSorted indices → MergedFrom config.discardDeletedKeys indices out) ∧
      ∃ first rest o, indices = first :: rest ∧ out = finishMerge config fileId first rest o := by
  rcases indices with - | ⟨first, rest⟩
  · cases hok
  by_cases hne : ∃ s ∈ first :: rest, s.entries ≠ []
  · obtain ⟨o, hrun, hwritten, hmerged⟩ := kWayMergeAsync2_ok h hio hne config fileId
    obtain rfl : finishMerge config fileId first rest o = out :=
      Except.ok.inj (hrun.symm.trans hok)
    exact ⟨hwritten, hmerged, first, rest, o, rfl, rfl⟩
  · push Not at hne
    exact absurd hok (kWayMergeAsync2_empty hio hne config fileId out)

theorem kWayMergeAsync2_spec {config : MergeConfig} {fileId : ℕ} {out : MergeOutput K}
    (h : Mergeable indices) (hio : io.Serves indices)
    (hok : kWayMergeAsync2 io config fileId indices = .ok out) :
    MergedFrom config.discardDeletedKeys indices out ∧
      ∃ first rest o, indices = first :: rest ∧ out = finishMerge config fileId first rest o := by
  obtain ⟨-, hmerged, hout⟩ := kWayMergeAsync2_written h.toMergeInputs hio hok
  exact ⟨hmerged h.mergeSorted, hout⟩

/-- **The k-way merge is the newest-wins union of its inputs**, for every
chunking of the inputs into read-ahead buffers. -/
theorem kWayMerge_newest_wins (io : MergeIo K) (config : MergeConfig) (fileId : ℕ)
    (indices : List (Sst K)) (hne : ∃ s ∈ indices, s.entries ≠ [])
    (hpartition : ∀ s ∈ indices, ∀ s' ∈ indices, s.upperBound = s'.upperBound)
    (hsorted : ∀ s ∈ indices, s.Sorted)
    (hepochs : indices.Pairwise fun s s' => s.epoch ≠ s'.epoch)
    (hdec : ∀ s ∈ indices, s.AllDecodable) (hio : io.Serves indices) :
    ∃ out, kWayMergeAsync2 io config fileId indices = .ok out ∧
      (out.sst.entries.Pairwise fun a b => a.key < b.key) ∧
      (∀ s ∈ indices, ∀ r ∈ s.entries, ∃ r', Newest indices r' ∧ r'.key = r.key) ∧
      (∀ r, r ∈ out.sst.entries ↔ Newest indices r ∧
        ¬ (config.discardDeletedKeys = true ∧ valueFromSpan r.value = .ok .tombstone)) ∧
      out.indexedKv = out.sst.entries.length ∧
      totalKeys indices =
        out.sst.entries.length + out.deduplicatedKeys + out.filteredKeys ∧
      (∀ s ∈ indices, s.maxSeqNr ≤ out.sst.maxSeqNr) ∧
      ∃ s ∈ indices, out.sst.maxSeqNr = s.maxSeqNr := by
  have hM : Mergeable indices := ⟨⟨hpartition, hsorted, hdec⟩, hepochs⟩
  rcases indices with - | ⟨first, rest⟩
  · simp at hne
  obtain ⟨out, hok, -, hmerged⟩ := kWayMergeAsync2_ok hM.toMergeInputs hio hne config fileId
  replace hmerged := hmerged hM.mergeSorted
  refine ⟨_, hok, hmerged.sorted, fun s hs r hr => hM.mergeSorted.exists_newest hs hr, fun r => ?_,
    hmerged.indexedKv, hmerged.count, fun s hs => le_outputMaxSeqNr hs,
    outputMaxSeqNr_mem (cons_ne_nil _ _)⟩
  rw [hmerged.mem_iff]
  refine and_congr_right fun hnewest => ?_
  obtain ⟨s, hs, hr, -⟩ := hnewest
  rw [isTombstone_iff (hdec s hs r hr)]

/-- Two SSTs: the newer one updates key 1 and deletes key 2. -/
def exampleInputs : List (Sst ℕ) :=
  [ { id := 0, indexId := 0, epoch := 3, upperBound := 0, maxSeqNr := 4,
      entries := [⟨1, 0, [1, 10]⟩, ⟨2, 1, [1, 20]⟩, ⟨5, 2, [1, 50]⟩] },
    { id := 1, indexId := 1, epoch := 4, upperBound := 0, maxSeqNr := 6,
      entries := [⟨1, 5, [1, 11]⟩, ⟨2, 6, [2]⟩] } ]

/-- One entry per buffer, two entries per output block. -/
def exampleIo {K : Type*} : MergeIo K :=
  { chunks := fun s => s.entries.map fun r => ⟨[r], 4096⟩
    low := fun size => size < 4096
    fits := fun buf _ => buf.length < 2
    keySize := fun _ => 8 }

theorem kWayMerge_newest_wins_example :
    ∃ out, kWayMergeAsync2 exampleIo ⟨2, true⟩ 2 exampleInputs = .ok out ∧
      (∀ r, r ∈ out.sst.entries ↔ Newest exampleInputs r ∧
        ¬ (true = true ∧ valueFromSpan r.value = .ok .tombstone)) ∧
      5 = out.sst.entries.length + out.deduplicatedKeys + out.filteredKeys := by
  obtain ⟨out, hok, -, -, hmem, -, hcount, -⟩ :=
    kWayMerge_newest_wins exampleIo ⟨2, true⟩ 2 exampleInputs (by decide) (by decide)
      (by decide) (by decide) (by decide) (by decide)
  exact ⟨out, hok, hmem, hcount⟩

end HedgeDB
