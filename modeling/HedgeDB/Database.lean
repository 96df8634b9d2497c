/-
HedgeDB/Database.lean

The database as one state (`src/db/database.cc`, `src/db/memtable.cc`): the
current table, the pending tables by flush epoch, and a level tree for each
partition, with the read path `get_async` through all of them.

The steps are the atomic actions that reads can fall between: a write into the
current table, the table switch, the completion of the oldest flush (its SSTs
enter level 0 and the table leaves `_pending_flushes` under one lock), and the
steps of compaction.

What the database is for is a plain map from keys to the last thing written
under them (`Cell`, `DatabaseStep.write`).
-/
import HedgeDB.IndexOps
import HedgeDB.Compaction

namespace HedgeDB

open PartitionState

variable {K : Type*} [LinearOrder K]

/-- Memory and level trees.  `pendingFlushes` is in ascending epoch order, as
`std::map` iterates it. -/
structure Database (K : Type*) [LinearOrder K] where
  table : Skiplist K := .empty
  pendingFlushes : List (ℕ × Skiplist K) := []
  seqNr : ℕ := 0
  flushIteration : ℕ := 0
  nextFileId : ℕ := 0
  partitions : ℕ → PartitionState K := fun _ => {}

/-! ### Reading -/

/-- The tables `memtable::get` looks into, one after the other.  The exception
thrown on a corrupted value is the error branch. -/
def memtableGetFrom (toHexString : K → String) (k : K) :
    List (Skiplist K) → Expected (Option Value)
  | [] => .ok none
  | t :: rest =>
      match t.get k with
      | none => memtableGetFrom toHexString k rest
      | some e =>
          match valueFromSpan e.value with
          | .ok value => .ok (some value)
          | .error err =>
              .error { msg := "Corrupted value in memtable for key " ++ toHexString k ++ ": " ++
                err.msg }

namespace Database

variable (cfg : SstManagerConfig) (part : K → ℕ) (probe : Sst K → K → Bool)
  (toHexString : K → String) (db : Database K)

/-- `memtable::get`: the current table, then the pending ones from the most
recent. -/
def memtableGet (k : K) : Expected (Option Value) :=
  memtableGetFrom toHexString k (db.table :: (db.pendingFlushes.map Prod.snd).reverse)

/-- `database::_find_value`; `part` is `_find_matching_partition_for_key`. -/
def findValue (k : K) : Expected Value :=
  match db.memtableGet toHexString k with
  | .error e => .error e
  | .ok (some value) => .ok value
  | .ok none => lookupAsync probe ((db.partitions (part k)).levelList cfg) k

def getAsync (k : K) : Expected Bytes :=
  match db.findValue cfg part probe toHexString k with
  | .error e => .error e
  | .ok (.bytes data) => .ok data
  | .ok .tombstone => .error { msg := "deleted key", code := .deleted }
  | .ok (.valuePtr _) => .error { msg := "kv separation not implemented" }

/-! ### Steps -/

/-- `skiplist_wrapper::insert` into the current table. -/
def insert (key : K) (value : Bytes) : Database K :=
  { db with table := db.table.insert ⟨key, db.seqNr, value⟩, seqNr := db.seqNr + 1 }

/-- The swap of `_flush`: the current table becomes pending under `epoch`. -/
def switch (epoch : ℕ) : Database K :=
  { db with
    table := .empty
    pendingFlushes := db.pendingFlushes ++ [(epoch, db.table)]
    flushIteration := epoch + 1 }

/-- `push_new_ssts_to_l0`: each SST goes to the partition it names. -/
def pushSsts (partitions : ℕ → PartitionState K) (ssts : List (Sst K)) : ℕ → PartitionState K :=
  ssts.foldl (fun ps sst =>
    Function.update ps sst.upperBound ((ps sst.upperBound).pushNewSstsToL0 sst)) partitions

/-- The completion of `_flush_inner` for the oldest pending table: `rest` are the
tables that stay pending. -/
def flushed (rest : List (ℕ × Skiplist K)) (ssts : List (Sst K)) : Database K :=
  { db with
    pendingFlushes := rest
    nextFileId := db.nextFileId + ssts.length
    partitions := pushSsts db.partitions ssts }

/-- Partition `p` after one of its own steps. -/
def setPartition (p : ℕ) (s : PartitionState K) : Database K :=
  { db with
    nextFileId := max db.nextFileId s.nextFileId
    partitions := Function.update db.partitions p s }

end Database

inductive DatabaseStep (K : Type*)
  | put (key : K) (value : Bytes)
  | remove (key : K)
  | switch (epoch : ℕ)
  | flush
  | compaction (p : ℕ) (a : PartitionStep K)

/-- The steps of a partition that compaction takes; SSTs enter through flushes
and a partition is not reloaded while the database runs. -/
def PartitionStep.isCompaction : PartitionStep K → Bool
  | .push _ => false
  | .reload => false
  | _ => true

/-- One step.  The flush epoch comes from a counter that compactions draw file
numbers from too, so a switch gets a number not below the counter. -/
def databaseStep (cfg : SstManagerConfig) (part : K → ℕ) (db : Database K) :
    DatabaseStep K → Option (Database K)
  | .put key value => some (db.insert key (encodeValue .inPlaceValue value))
  | .remove key => some (db.insert key (encodeValue .tombstone []))
  | .switch epoch => if db.flushIteration ≤ epoch then some (db.switch epoch) else none
  | .flush =>
      match db.pendingFlushes with
      | [] => none
      | (epoch, table) :: rest =>
          match flushMemtable part db.nextFileId epoch table.entries with
          | .error _ => none
          | .ok ssts => some (db.flushed rest ssts)
  | .compaction p a =>
      if a.isCompaction then (partitionStep cfg p (db.partitions p) a).map (db.setPartition p)
      else none

/-! ### The plain map -/

/-- What a plain map knows about a key. -/
inductive Cell
  | unwritten
  | value (data : Bytes)
  | removed
  deriving DecidableEq, Repr

/-- The effect of a step on the plain map: only writes count. -/
def DatabaseStep.write (m : K → Cell) : DatabaseStep K → K → Cell
  | .put key value => Function.update m key (.value value)
  | .remove key => Function.update m key .removed
  | _ => m

/-- The map after a run: for every key the last thing written under it. -/
def lastWrites (as : List (DatabaseStep K)) : K → Cell :=
  as.foldl DatabaseStep.write fun _ => .unwritten

/-- What `get_async` may answer for a key.  A removed key reads as deleted while
its tombstone is stored, and as missing once compaction has dropped it. -/
def Cell.Answer : Cell → Expected Bytes → Prop
  | .unwritten, answer => answer = .error { msg := "Key not found", code := .keyNotFound }
  | .value data, answer => answer = .ok data
  | .removed, answer => answer = .error { msg := "deleted key", code := .deleted } ∨
      answer = .error { msg := "Key not found", code := .keyNotFound }

end HedgeDB
