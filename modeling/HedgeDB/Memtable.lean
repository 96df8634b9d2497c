/-
HedgeDB/Memtable.lean

The memtable under concurrent callers (`src/db/memtable.cc`,
`src/async/rw_sync.h`).

Threads run `put_async` and `get`; each flush runs `_flush_inner` in the
background.  An atomic action is one access to something another thread can see:
the counters and the `_frozen` flag of a table, `_seq_nr`, the skip list, the
flush mutex, `_table`, `_table_switch_epoch`, `_pending_flushes`.  Atomics are
read and written in one order all threads agree on.

Tables are numbered in the order in which they become current.  `_pending_flushes`
grows at its end because flush epochs are drawn under the flush mutex.
-/
import HedgeDB.Interleave
import HedgeDB.Skiplist

namespace HedgeDB

variable {K : Type*} [LinearOrder K]

/-! ### Shared state -/

/-- `rw_sync<write_buffer>`: the table, and the admission of its writers. -/
structure TableState (K : Type*) [LinearOrder K] where
  contents : Skiplist K := .empty
  frozen : Bool := false
  counters : ℕ → ℕ := fun _ => 0

/-- How far `_flush_inner` has come with a table; while it waits for the writers
to drain, `slot` is the counter `any_active_writer` reads next. -/
inductive FlushStage (K : Type*)
  | waiting
  | draining (slot : ℕ)
  | writing
  | written (entries : List (MemtableEntry K))
  | failed
  | published

/-- What the threads share.  The flush mutex is a flag in the source; the model
keeps the thread that set it.  `ssts` holds what each published flush wrote, in
table order.  `drawn` and `returned` only record what happened: the sequence
numbers drawn with the table they were drawn for, and the writes of the
`put_async` calls that have returned. -/
structure SharedState (n : ℕ) (K : Type*) [LinearOrder K] where
  tables : ℕ → TableState K := fun _ => {}
  table : ℕ := 0
  pendingFlushes : List (ℕ × ℕ) := []
  seqNr : ℕ := 0
  flushEpoch : ℕ := 0
  tableSwitchEpoch : ℕ := 0
  flushMutex : Option (Fin n) := none
  stages : ℕ → FlushStage K := fun _ => .waiting
  ssts : List (List (MemtableEntry K)) := []
  drawn : List (ℕ × ℕ) := []
  returned : List (K × Bytes) := []

namespace SharedState

variable {n : ℕ} (g : SharedState n K)

def setTable (i : ℕ) (f : TableState K → TableState K) : SharedState n K :=
  { g with tables := Function.update g.tables i (f (g.tables i)) }

/-- A store to the counter of a slot. -/
def setCounter (i slot c : ℕ) : SharedState n K :=
  g.setTable i fun t => { t with counters := Function.update t.counters slot c }

def freezeWrites (i : ℕ) : SharedState n K := g.setTable i fun t => { t with frozen := true }

/-- The skip-list insertion. -/
def insert (i : ℕ) (e : MemtableEntry K) : SharedState n K :=
  g.setTable i fun t => { t with contents := t.contents.insert e }

end SharedState

/-! ### Threads -/

/-- Where a `put_async` call is.  From `admitted` on it holds its table as a
writer; the stages of `_flush` are part of the call. -/
inductive PutPc
  | start
  | announced
  | refused
  | reload
  | admitted
  | drawn (seqNr : ℕ)
  | inserted
  | flushLock
  | flushGuard
  | flushEpoch
  | flushFreeze (epoch : ℕ)
  | flushSwap (epoch : ℕ)
  | flushBump (flushed : ℕ)
  | flushUnlock (flushed : ℕ)
  | release (done : Bool)
  deriving DecidableEq, Repr

/-- Where a `get` call is. -/
inductive GetPc
  | initEpoch
  | initTable
  | check
  | reload
  | readTable
  | copyPending
  | search (pending : List ℕ)
  | searchSsts
  | returned (value : Option Bytes)
  deriving DecidableEq, Repr

/-- The call a thread is in.  A `put` has the table of its thread-local
reference; a `get` has the thread-local epoch and table, and remembers which
writes had returned when it started. -/
inductive Call (K : Type*)
  | idle
  | put (key : K) (value : Bytes) (table : ℕ) (pc : PutPc)
  | get (key : K) (since : List (K × Bytes)) (epoch table : ℕ) (pc : GetPc)

/-- A thread: its thread-local references, once they are initialised, and its
call. -/
structure ThreadState (K : Type*) where
  putRef : Option ℕ := none
  getRef : Option (ℕ × ℕ) := none
  call : Call K := .idle

/-- Where a call goes on; `none` is its return. -/
def Call.afterPut (key : K) (value : Bytes) (i : ℕ) : Option PutPc → Call K
  | some pc => .put key value i pc
  | none => .idle

def Call.afterGet (key : K) (since : List (K × Bytes)) (epoch i : ℕ) : Option GetPc → Call K
  | some pc => .get key since epoch i pc
  | none => .idle

/-- What a thread does next; `choice` decides what the model leaves open: whether
an allocation succeeds, and whether the table is still within budget.  The value
of a `put` is the stored one, its type byte first. -/
inductive ThreadAct (K : Type*)
  | startPut (key : K) (value : Bytes)
  | startGet (key : K)
  | run (choice : Bool)

/-- The next action of `put_async` on table `i`, by thread `t`, whose counter is
`slot`: the shared state, the table of the thread-local reference, and where the
call is, or `none` when it returns. -/
def putStep {n : ℕ} (t : Fin n) (slot : ℕ) (choice : Bool) (g : SharedState n K) (key : K)
    (value : Bytes) (i : ℕ) : PutPc → SharedState n K × ℕ × Option PutPc
  | .start => (g.setCounter i slot 1, i, some .announced)
  | .announced => (g, i, some (if (g.tables i).frozen then .refused else .admitted))
  | .refused => (g.setCounter i slot 0, i, some .reload)
  -- the same table again is a pause or an await, then another attempt
  | .reload => (g, g.table, some .start)
  | .admitted =>
      if choice then
        ({ g with seqNr := g.seqNr + 1, drawn := g.drawn ++ [(i, g.seqNr)] }, i,
          some (.drawn g.seqNr))
      else (g, i, some .flushLock)
  -- the skip list may run out of memory after the number is drawn
  | .drawn seq =>
      if choice then (g.insert i ⟨key, seq, value⟩, i, some .inserted)
      else (g, i, some .flushLock)
  | .inserted => (g, i, some (if choice then .release true else .flushLock))
  | .flushLock =>
      match g.flushMutex with
      | some _ => (g, i, some (.release false))
      | none => ({ g with flushMutex := some t }, i, some .flushGuard)
  | .flushGuard =>
      if g.table ≠ i then ({ g with flushMutex := none }, i, some (.release false))
      else (g, i, some .flushEpoch)
  | .flushEpoch => ({ g with flushEpoch := g.flushEpoch + 1 }, i, some (.flushFreeze g.flushEpoch))
  | .flushFreeze epoch => (g.freezeWrites i, i, some (.flushSwap epoch))
  | .flushSwap epoch =>
      ({ g with
          table := g.table + 1
          pendingFlushes := g.pendingFlushes ++ [(epoch, g.table)] }, i,
        some (.flushBump g.table))
  | .flushBump flushed =>
      ({ g with tableSwitchEpoch := g.tableSwitchEpoch + 1 }, i, some (.flushUnlock flushed))
  | .flushUnlock flushed =>
      ({ g with stages := Function.update g.stages flushed (.draining 0), flushMutex := none }, i,
        some (.release false))
  | .release done =>
      if done then
        ({ g.setCounter i slot 0 with returned := g.returned ++ [(key, value)] }, i, none)
      else (g.setCounter i slot 0, i, some .start)

/-- `skiplist_wrapper::get` on table `i`. -/
def SharedState.lookup {n : ℕ} (g : SharedState n K) (i : ℕ) (k : K) : Option Bytes :=
  ((g.tables i).contents.get k).map MemtableEntry.value

def SharedState.lookupSsts {n : ℕ} (g : SharedState n K) (k : K) : Option Bytes :=
  (g.ssts.reverse.findSome? fun es => KeyedList.lookup MemtableEntry.key es k).map
    MemtableEntry.value

/-- The next action of `get`: the thread-local epoch and table, and where the call
is, or `none` when it is over. -/
def getStep {n : ℕ} (g : SharedState n K) (k : K) (epoch i : ℕ) :
    GetPc → ℕ × ℕ × Option GetPc
  | .initEpoch => (g.tableSwitchEpoch, i, some .initTable)
  | .initTable => (epoch, g.table, some .check)
  | .check =>
      if g.tableSwitchEpoch > epoch then (g.tableSwitchEpoch, i, some .reload)
      else (epoch, i, some .readTable)
  | .reload => (epoch, g.table, some .readTable)
  | .readTable =>
      match g.lookup i k with
      | some value => (epoch, i, some (.returned (some value)))
      | none => (epoch, i, some .copyPending)
  | .copyPending => (epoch, i, some (.search (g.pendingFlushes.map Prod.snd).reverse))
  | .search [] => (epoch, i, some .searchSsts)
  | .search (j :: rest) =>
      match g.lookup j k with
      | some value => (epoch, i, some (.returned (some value)))
      | none => (epoch, i, some (.search rest))
  | .searchSsts => (epoch, i, some (.returned (g.lookupSsts k)))
  | .returned _ => (epoch, i, none)

/-! ### The system -/

def threadAct {n : ℕ} (numWriterThreads : ℕ) (t : Fin n) (a : ThreadAct K)
    (g : SharedState n K) (l : ThreadState K) : Option (SharedState n K × ThreadState K) :=
  match a, l.call with
  | .startPut key value, .idle =>
      let i := l.putRef.getD g.table
      some (g, { l with putRef := some i, call := .put key value i .start })
  | .startGet key, .idle =>
      match l.getRef with
      | none => some (g, { l with call := .get key g.returned 0 0 .initEpoch })
      | some (epoch, i) => some (g, { l with call := .get key g.returned epoch i .check })
  | .run choice, .put key value i pc =>
      match putStep t (t.val % numWriterThreads) choice g key value i pc with
      | (g', i', pc') =>
          some (g', { l with putRef := some i', call := .afterPut key value i' pc' })
  | .run _, .get key since epoch i pc =>
      match getStep g key epoch i pc with
      | (epoch', i', pc') =>
          some (g, { l with
            getRef := some (epoch', i')
            call := .afterGet key since epoch' i' pc' })
  | _, _ => none

/-- The actions of `_flush_inner` on table `i`. -/
inductive FlushAct
  | scan (i : ℕ)
  | write (i : ℕ) (ok : Bool)
  | publish (i : ℕ)

/-- One action of `_flush_inner`.  A failed flush leaves its table pending, and
the permission to publish is not passed on: tables are published in order. -/
def flushAct {n : ℕ} (numWriterThreads : ℕ) (a : FlushAct) (g : SharedState n K) :
    Option (SharedState n K) :=
  match a with
  -- one counter of `any_active_writer`; a positive one starts the scan again
  | .scan i =>
      match g.stages i with
      | .draining slot =>
          let stage :=
            if slot = numWriterThreads then .writing
            else if (g.tables i).counters slot > 0 then .draining 0
            else .draining (slot + 1)
          some { g with stages := Function.update g.stages i stage }
      | _ => none
  | .write i ok =>
      match g.stages i with
      | .writing =>
          let stage := if ok then .written (g.tables i).contents.entries else .failed
          some { g with stages := Function.update g.stages i stage }
      | _ => none
  | .publish i =>
      match g.stages i with
      | .written entries =>
          if g.ssts.length = i then
            some { g with
              stages := Function.update g.stages i .published
              pendingFlushes := g.pendingFlushes.filter fun q => q.2 ≠ i
              ssts := g.ssts ++ [entries] }
          else none
      | _ => none

/-- The memtable with `n` threads and `numWriterThreads` writer slots. -/
def memtable (n numWriterThreads : ℕ) (K : Type*) [LinearOrder K] :
    Interleave.System (Fin n) (SharedState n K) (ThreadState K) (ThreadAct K) FlushAct where
  act := threadAct numWriterThreads
  background := flushAct numWriterThreads

/-- A stretch of a run in which one thread moves on, with its choices. -/
def threadRuns {n : ℕ} (t : Fin n) (choices : List Bool) :
    List (Interleave.Label (Fin n) (ThreadAct K) FlushAct) :=
  choices.map fun choice => .thread t (.run choice)

def newMemtable (n : ℕ) (K : Type*) [LinearOrder K] :
    Interleave.State (Fin n) (SharedState n K) (ThreadState K) :=
  ⟨{}, fun _ => {}⟩

end HedgeDB
