/-
HedgeDB/RangeIterator.lean

Range scans: the iterator and its sources (`include/db/range_iterator.h`,
`src/db/range_iterator.cc`, `src/db/merge/sst_stream.h`).

A source is a stream over an SST or a cursor over a table.  A cursor holds two
nodes of the skip list, where it stands and where it ends; every move reads the
list as it is at that moment, so the operations of a cursor take the table they
read.  The iterator merges its sources with a heap, drops all but the first
entry of each key with a deduplicator that lags one entry behind, and turns
what is left into pairs: `SKIP` for what is below the lower bound or deleted,
`END_OF_SCAN` behind the upper bound.
-/
import HedgeDB.IndexOps
import HedgeDB.Merge

namespace HedgeDB

open KeyedList KWayMerge

variable {K : Type*} [LinearOrder K]

/-! ### Nodes of a skip list -/

/-- `std::numeric_limits<uint64_t>::max()`. -/
def uint64Max : ℕ := 2 ^ 64 - 1

namespace Skiplist

/-- `begin()`; none is the end. -/
def begin (t : Skiplist K) : Option (MemtableEntry K) := t.entries.head?

/-- The node an iterator at `e` moves to. -/
def next (t : Skiplist K) (e : MemtableEntry K) : Option (MemtableEntry K) :=
  t.entries.find? fun a => memtableCmp e a

/-- `lower_bound` of `(key, UINT64_MAX)`: no version of the key comes before it. -/
def lowerBound (t : Skiplist K) (key : K) : Option (MemtableEntry K) :=
  t.entries.find? fun a => key ≤ a.key

end Skiplist

/-! ### Memtable cursors -/

/-- `memtable_cursor`: the table it reads, the nodes `_it` and `_end`. -/
structure MemtableCursor (K : Type*) where
  table : ℕ
  it : Option (MemtableEntry K)
  endIt : Option (MemtableEntry K)
  maxSeq : ℕ
  epoch : ℕ
  deriving DecidableEq, Repr

/-- The node `_it` rests at after a loop `while(_it != _end && p(*_it)) ++_it`
that moves at most `fuel` times. -/
def skipWhile (t : Skiplist K) (endIt : Option (MemtableEntry K)) (p : MemtableEntry K → Bool) :
    ℕ → Option (MemtableEntry K) → Option (MemtableEntry K)
  | 0, it => it
  | _ + 1, none => none
  | fuel + 1, some e =>
      if some e ≠ endIt ∧ p e = true then skipWhile t endIt p fuel (t.next e) else some e

namespace MemtableCursor

def skipInvisible (t : Skiplist K) (c : MemtableCursor K) : MemtableCursor K :=
  { c with it := skipWhile t c.endIt (fun e => e.seq > c.maxSeq) t.entries.length c.it }

def skipDuplicateKeys (t : Skiplist K) (key : K) (c : MemtableCursor K) : MemtableCursor K :=
  { c with it := skipWhile t c.endIt (fun e => e.key = key) t.entries.length c.it }

/-- The constructor, on table number `table` with contents `t`. -/
def make (t : Skiplist K) (table : ℕ) (lower upper : Option K) (epoch maxSeq : ℕ) :
    MemtableCursor K :=
  let it := match lower with
    | some key => t.lowerBound key
    | none => t.begin
  let bound := match upper with
    | some key => t.lowerBound key
    | none => none
  -- one node past the bound, which is thereby part of the range
  let c : MemtableCursor K := { table, it, endIt := bound.bind t.next, maxSeq, epoch }
  c.skipInvisible t

def isEof (c : MemtableCursor K) : Bool := c.it = c.endIt

def popFront (t : Skiplist K) (c : MemtableCursor K) : MemtableCursor K :=
  match c.it with
  | none => c
  | some e => (({ c with it := t.next e }).skipInvisible t).skipDuplicateKeys t e.key

end MemtableCursor

/-! ### Sources -/

/-- `scan_source_t`. -/
inductive ScanSource (K : Type*)
  | stream (s : SstStream K)
  | cursor (c : MemtableCursor K)

/-- The contents of the tables by number. -/
abbrev Tables (K : Type*) [LinearOrder K] := ℕ → Skiplist K

namespace ScanSource

/-- `source_is_eof`. -/
def isEof : ScanSource K → Bool
  | stream s => s.isEof
  | cursor c => c.isEof

/-- `source_buffer_empty`; for a cursor this is the end. -/
def bufferEmpty : ScanSource K → Bool
  | stream s => s.bufferEmpty
  | cursor c => c.isEof

def epoch : ScanSource K → ℕ
  | stream s => s.index.epoch
  | cursor c => c.epoch

/-- `refresh`, which only streams have. -/
def refresh : ScanSource K → ScanSource K
  | stream s => stream s.refresh
  | cursor c => cursor c

/-- `source_pop_entry`.  Without an entry at the front there is nothing to read:
the source looks before it pops. -/
def popEntry (mem : Tables K) : ScanSource K → Option (MergeEntry K × ScanSource K)
  | stream s => s.front.map fun r => (⟨r, s.index.epoch⟩, stream s.popFront)
  | cursor c => c.it.map fun e => (⟨e.toRecord, c.epoch⟩, cursor (c.popFront (mem c.table)))

end ScanSource

/-! ### The iterator -/

/-- `range_iterator`: the sources (the streams, then the cursors), the bounds and
the state of the merge. -/
structure RangeIterator (K : Type*) where
  sources : List (ScanSource K)
  lower : Option K
  upper : Option K
  dedup : Deduplicator K := {}
  heap : List (HeapSlot K) := []
  initialized : Bool := false
  exhausted : Bool := false

/-- What `next` returns at the end. -/
def endOfScanError : Error := { msg := "End of scan", code := .endOfScan }

/-- The bytes a value is returned as.  A `value_ptr_t` is returned as it is
stored; a debug build asserts that there is none. -/
def Value.payload : Value → Option Bytes
  | .tombstone => none
  | .bytes data => some data
  | .valuePtr raw => some raw

namespace RangeIterator

/-- Put the next entry of a source into the heap, refreshing its buffer when it
is empty; nothing at the end of the source.  `_init` does this for every
source, `_next_inner` for the one that was popped. -/
def fill (mem : Tables K) (it : RangeIterator K) (i : ℕ) : RangeIterator K :=
  match it.sources[i]? with
  | none => it
  | some s =>
      if s.isEof then it
      else
        let s' := if s.bufferEmpty then s.refresh else s
        match s'.popEntry mem with
        | none => { it with sources := it.sources.set i s' }
        | some (entry, s'') =>
            { it with sources := it.sources.set i s'', heap := it.heap ++ [⟨entry, i⟩] }

def init (mem : Tables K) (it : RangeIterator K) : RangeIterator K :=
  let refreshed := { it with sources := it.sources.map ScanSource.refresh }
  { (List.range it.sources.length).foldl (fill mem) refreshed with initialized := true }

def emit (it : RangeIterator K) (item : MergeEntry K) : Expected (K × Bytes) × RangeIterator K :=
  if it.lower.any (item.key < ·) then (.error { msg := "", code := .skip }, it)
  else if it.upper.any (· < item.key) then (.error endOfScanError, { it with exhausted := true })
  else
    match valueFromSpan item.record.value with
    | .error e => (.error { msg := "Failed to parse value: " ++ e.msg }, it)
    | .ok value =>
        match value.payload with
        | none => (.error { msg := "", code := .skip }, it)
        | some bytes => (.ok (item.key, bytes), it)

/-- One iteration of `_next_inner` on a popped slot: the deduplicator takes the
entry, the heap is filled from its source, and an entry that became ready is
emitted.  `none` goes on with the loop. -/
def iterate (mem : Tables K) (it : RangeIterator K) (slot : HeapSlot K) (rest : List (HeapSlot K)) :
    Option (Expected (K × Bytes)) × RangeIterator K :=
  let it := ({ it with heap := rest, dedup := it.dedup.push slot.entry }).fill mem slot.source
  match it.dedup.pop with
  | .error _ => (none, it)
  | .ok (item, dedup) =>
      match ({ it with dedup }).emit item with
      | (.ok kv, it) => (some (.ok kv), it)
      | (.error e, it) => if e.code = .endOfScan then (some (.error e), it) else (none, it)

/-- `_next_inner`, at most `fuel` times round its loop. -/
def nextInner (mem : Tables K) : ℕ → RangeIterator K → Expected (K × Bytes) × RangeIterator K
  | 0, it => (.error { msg := "" }, it)
  | fuel + 1, it =>
      match popHeap heapItemComparator it.heap with
      | none => (.error { msg := "eof", code := .endOfScan }, it)
      | some (slot, rest) =>
          match it.iterate mem slot rest with
          | (none, it) => nextInner mem fuel it
          | (some result, it) => (result, it)

/-- The last item of the deduplicator. -/
def last (it : RangeIterator K) : Expected (K × Bytes) × RangeIterator K :=
  match it.dedup.forcePop with
  | .error e => (.error e, it)
  | .ok (item, dedup) =>
      match ({ it with dedup, exhausted := true }).emit item with
      | (.ok kv, it) => (.ok kv, it)
      | (.error _, it) => (.error endOfScanError, it)

/-- The drain of `next`: the item that is ready, if there is one, then the last. -/
def drain (it : RangeIterator K) : Expected (K × Bytes) × RangeIterator K :=
  match it.dedup.pop with
  | .error _ => it.last
  | .ok (item, dedup) =>
      match ({ it with dedup }).emit item with
      | (.ok kv, it) => (.ok kv, it)
      | (.error e, it) => if e.code = .endOfScan then (.error e, it) else it.last

/-- How often a source can be popped, at most. -/
def sourceBound (mem : Tables K) : ScanSource K → ℕ
  | .stream s => s.remaining.length
  | .cursor c => (mem c.table).entries.length + 1

/-- A number of iterations `_next_inner` does not reach: each one pops an entry
that is in the heap or still in the source of one that is. -/
def bound (mem : Tables K) (it : RangeIterator K) : ℕ :=
  (it.heap.map fun slot =>
    (it.sources[slot.source]?.map (sourceBound mem)).getD 0 + 1).sum + 1

def next (mem : Tables K) (it : RangeIterator K) : Expected (K × Bytes) × RangeIterator K :=
  let it := if it.initialized then it else it.init mem
  if it.exhausted then (.error endOfScanError, it)
  else
    match it.nextInner mem (it.bound mem) with
    | (.ok kv, it) => (.ok kv, it)
    | (.error e, it) =>
        if e.code ≠ .endOfScan then
          (.error { msg := "Failed to get next item from scan iterator: " ++ e.msg }, it)
        else it.drain

/-- The iterator after `n` calls of `next`. -/
def afterCalls (mem : Tables K) : ℕ → RangeIterator K → RangeIterator K
  | 0, it => it
  | n + 1, it => afterCalls mem n (it.next mem).2

/-- What call number `n` of `next` returns, from 0. -/
def call (mem : Tables K) (it : RangeIterator K) (n : ℕ) : Expected (K × Bytes) :=
  ((it.afterCalls mem n).next mem).1

end RangeIterator

end HedgeDB
