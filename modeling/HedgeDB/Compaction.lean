/-
HedgeDB/Compaction.lean

One partition of the `sst_manager` as a state machine (`src/db/sst_manager.cc`,
`src/db/sst_manager_loader.cc`).

Flushes append SSTs to level 0.  A compaction round takes a snapshot of the
levels, cuts the pickable SSTs of each level into buckets and launches one task
per bucket.  Tasks merge their inputs concurrently; a task publishes its output
when its predecessor on the same level has passed on the permission, and
appends it to the next level (the last level to itself).

The compaction worker is one coroutine, so that a round is two steps, `snapshot`
and `launch`, and any other step may fall between them.  Inputs of a task never
change, so its merge is computed when it commits.

The n-th semaphore made for a level is the number n: the task launched with
`can_write = n` releases `n + 1`.  A failed task releases nothing; it stays in
the list of its level as a marker that the chain is broken there.
-/
import HedgeDB.Merge
import HedgeDB.Run

namespace HedgeDB

open List

variable {K : Type*} [LinearOrder K]

/-! ### Compaction state of an SST -/

inductive CompactionProgressState
  | pickableForCompaction
  | inCompaction
  | compacted
  | compactionError
  deriving DecidableEq, Repr

namespace CompactionProgressState

def toString : CompactionProgressState → String
  | pickableForCompaction => "PICKABLE_FOR_COMPACTION"
  | inCompaction => "IN_COMPACTION"
  | compacted => "COMPACTED"
  | compactionError => "COMPACTION_ERROR"

def validTransition : CompactionProgressState → CompactionProgressState → Bool
  | pickableForCompaction, next => next = inCompaction ∨ next = compactionError
  | inCompaction, next => next = compacted ∨ next = compactionError
  | compacted, next => next = compactionError
  | compactionError, _ => false

/-- `sst::set_compaction_state`. -/
def set (curr new : CompactionProgressState) : Expected CompactionProgressState :=
  if curr = compactionError then .ok curr
  else if validTransition curr new then .ok new
  else .error { msg := "Invalid transition: " ++ curr.toString ++ " -> " ++ new.toString }

/-- The state afterwards; a throw leaves it as it was. -/
def setOrKeep (curr new : CompactionProgressState) : CompactionProgressState :=
  match curr.set new with
  | .ok state => state
  | .error _ => curr

end CompactionProgressState

/-! ### Buckets -/

/-- The fields of `sst_manager::config` that compaction reads. -/
structure SstManagerConfig where
  maxNumLevels : ℕ := 40
  minMergeWidth : ℕ := 4
  maxMergeWidth : ℕ := 16

/-- What the assertions of the manager ask of a configuration. -/
structure SstManagerConfig.Valid (cfg : SstManagerConfig) : Prop where
  levels : 1 ≤ cfg.maxNumLevels
  two_le : 2 ≤ cfg.minMergeWidth
  width : cfg.minMergeWidth < cfg.maxMergeWidth

section Buckets

variable {α : Type*} (pickable : α → Bool) (minMergeWidth maxMergeWidth : ℕ)

/-- Emit a candidate set that is wide enough. -/
def emitBucket (candidates : List α) : List (List α) :=
  if minMergeWidth ≤ candidates.length then [candidates] else []

/-- The loop of `create_buckets_from_level` over what is left of the level.
`none` is the loop skipping SSTs that cannot be picked; `some candidates` is the
loop collecting. -/
def bucketLoop : Option (List α) → List α → List (List α)
  | _, [] => []
  | none, x :: xs =>
      if pickable x then bucketLoop (some [x]) xs else bucketLoop none xs
  | some candidates, x :: xs =>
      if pickable x ∧ candidates.length < maxMergeWidth then
        if xs ≠ [] then bucketLoop (some (candidates ++ [x])) xs
        else emitBucket minMergeWidth (candidates ++ [x])
      else
        emitBucket minMergeWidth candidates ++
          if pickable x then bucketLoop (some [x]) xs else bucketLoop none xs

def createBucketsFromLevel (level : List α) : List (List α) :=
  if level.length < minMergeWidth then []
  else bucketLoop pickable minMergeWidth maxMergeWidth none level

variable {pickable minMergeWidth maxMergeWidth}

theorem le_length_of_mem_bucketLoop {o : Option (List α)} {l b : List α}
    (h : b ∈ bucketLoop pickable minMergeWidth maxMergeWidth o l) : minMergeWidth ≤ b.length := by
  have hemit : ∀ c : List α, b ∈ emitBucket minMergeWidth c → minMergeWidth ≤ b.length := by
    intro c hc
    rw [emitBucket] at hc
    split at hc
    · obtain rfl := mem_singleton.mp hc
      assumption
    · cases hc
  induction l generalizing o with
  | nil => rcases o with - | c <;> simp [bucketLoop] at h
  | cons x xs ih =>
    rcases o with - | c <;> rw [bucketLoop] at h
    · split at h <;> exact ih h
    · split at h
      · split at h
        · exact ih h
        · exact hemit _ h
      · rcases mem_append.mp h with h' | h'
        · exact hemit _ h'
        · split at h' <;> exact ih h'

theorem bucketLoop_initial (hw : minMergeWidth ≤ maxMergeWidth) (o : Option (List α))
    {l : List α} (hl : ∀ x ∈ l, pickable x = true) :
    (bucketLoop pickable minMergeWidth maxMergeWidth o l).flatten <+: o.getD [] ++ l := by
  induction l generalizing o with
  | nil => rcases o with - | c <;> simp [bucketLoop]
  | cons x xs ih =>
    have hx : pickable x = true := hl x mem_cons_self
    have ih' := fun o => ih o fun y hy => hl y (mem_cons_of_mem _ hy)
    rcases o with - | c <;> rw [bucketLoop]
    · simpa [hx] using ih' (some [x])
    · split
      · split
        · simpa using ih' (some (c ++ [x]))
        · next hxs =>
          rw [not_not.mp hxs, emitBucket]
          split <;> simp
      · next hfull =>
        -- the set is full, hence wide enough
        have hlen : minMergeWidth ≤ c.length :=
          hw.trans (not_lt.mp fun h => hfull ⟨hx, h⟩)
        rw [emitBucket, if_pos hlen]
        simpa using ih' (some [x])

theorem bucketLoop_skip {dead q : List α} (hd : ∀ x ∈ dead, pickable x = false) :
    bucketLoop pickable minMergeWidth maxMergeWidth none (dead ++ q) =
      bucketLoop pickable minMergeWidth maxMergeWidth none q := by
  induction dead with
  | nil => rfl
  | cons x dead ih =>
    rw [cons_append, bucketLoop, if_neg (by simp [hd x mem_cons_self])]
    exact ih fun y hy => hd y (mem_cons_of_mem _ hy)

/-- When the SSTs that cannot be picked come first, the buckets take the
pickable ones from the oldest on without a gap. -/
theorem createBucketsFromLevel_initial (hw : minMergeWidth ≤ maxMergeWidth) {dead q : List α}
    (hd : ∀ x ∈ dead, pickable x = false) (hq : ∀ x ∈ q, pickable x = true) :
    (createBucketsFromLevel pickable minMergeWidth maxMergeWidth (dead ++ q)).flatten <+: q := by
  rw [createBucketsFromLevel]
  split
  · exact nil_prefix
  · rw [bucketLoop_skip hd]
    exact bucketLoop_initial hw none hq

theorem le_length_of_mem_createBucketsFromLevel {level b : List α}
    (h : b ∈ createBucketsFromLevel pickable minMergeWidth maxMergeWidth level) :
    minMergeWidth ≤ b.length := by
  rw [createBucketsFromLevel] at h
  split at h
  · cases h
  · exact le_length_of_mem_bucketLoop h

end Buckets

/-! ### The partition -/

/-- A launched compaction task of some level. -/
structure CompactionTask (K : Type*) where
  inputs : List (Sst K)
  discardDeletedKeys : Bool
  canWrite : ℕ
  failed : Bool := false

/-- `_partition_state`, the tasks launched on it, the snapshot of the round in
progress, and the manifest file. -/
structure PartitionState (K : Type*) where
  levels : ℕ → List (Sst K) := fun _ => []
  permissions : ℕ → ℕ := fun _ => 0
  permits : ℕ → ℕ → ℕ := fun _ n => if n = 0 then 1 else 0
  created : ℕ → Bool := fun _ => false
  compactionState : ℕ → CompactionProgressState := fun _ => .pickableForCompaction
  tasks : ℕ → List (CompactionTask K) := fun _ => []
  snapshot : Option (ℕ → List (Sst K)) := none
  manifest : ℕ → List (Sst K) := fun _ => []
  nextFileId : ℕ := 0

namespace PartitionState

variable (cfg : SstManagerConfig) (s : PartitionState K)

/-- `sst::pickable_for_compaction`. -/
def pickable (sst : Sst K) : Bool := s.compactionState sst.id = .pickableForCompaction

/-- The levels as the vector `lookup_async` iterates. -/
def levelList : List (List (Sst K)) := (range cfg.maxNumLevels).map s.levels

def setCompactionState (inputs : List (Sst K)) (new : CompactionProgressState) (id : ℕ) :
    CompactionProgressState :=
  if id ∈ inputs.map Sst.id then (s.compactionState id).setOrKeep new else s.compactionState id

/-- `push_new_ssts_to_l0` for the SST of this partition. -/
def pushNewSstsToL0 (sst : Sst K) : PartitionState K :=
  { s with
    levels := Function.update s.levels 0 (s.levels 0 ++ [sst])
    nextFileId := max s.nextFileId (sst.id + 1) }

/-! #### A compaction round -/

/-- The level a task of `level` writes to. -/
def targetLevel (level : ℕ) : ℕ := min (level + 1) (cfg.maxNumLevels - 1)

/-- `can_discard_keys`; `isFirst` says that the bucket is the first of its level
in this round.  The snapshot has `max_num_levels` levels. -/
def canDiscardKeys (level : ℕ) (isFirst : Bool) : Bool :=
  let currentLastLevel := cfg.maxNumLevels
  let mergeToBottommostLevel :=
    level + 1 = currentLastLevel ∨ level + 1 = cfg.maxNumLevels - 1
  (isFirst ∧ mergeToBottommostLevel) ∧
    (targetLevel cfg level = cfg.maxNumLevels ∨ s.created (targetLevel cfg level) = false)

/-- The body of the loop of `launch_compaction_tasks` over buckets. -/
def launchBucket (level : ℕ) (isFirst : Bool) (inputs : List (Sst K)) : PartitionState K :=
  let canWrite := s.permissions level
  let task := { inputs, discardDeletedKeys := s.canDiscardKeys cfg level isFirst, canWrite }
  { s with
    permissions := Function.update s.permissions level (canWrite + 1)
    created := Function.update s.created (targetLevel cfg level) true
    compactionState := s.setCompactionState inputs .inCompaction
    tasks := Function.update s.tasks level (s.tasks level ++ [task]) }

/-- All buckets of one level, in order. -/
def launchLevel (level : ℕ) : Bool → List (List (Sst K)) → PartitionState K → PartitionState K
  | _, [], s => s
  | isFirst, inputs :: rest, s =>
      launchLevel level false rest (s.launchBucket cfg level isFirst inputs)

/-- The buckets of a level of the snapshot (`pick_ssts_into_buckets`, with the
widths `_schedule_compaction` passes). -/
def pickBuckets (compactAll : Bool) (snapshot : ℕ → List (Sst K)) (level : ℕ) :
    List (List (Sst K)) :=
  let minMergeWidth := if compactAll then 2 else cfg.minMergeWidth
  let maxMergeWidth := if compactAll then 2 ^ 64 - 1 else cfg.maxMergeWidth
  createBucketsFromLevel s.pickable minMergeWidth maxMergeWidth (snapshot level)

/-- `launch_compaction_tasks` on the buckets picked from the snapshot: levels in
ascending order. -/
def launchCompactionTasks (compactAll : Bool) (snapshot : ℕ → List (Sst K)) : PartitionState K :=
  (range cfg.maxNumLevels).foldl
    (fun t level => launchLevel cfg level true (s.pickBuckets cfg compactAll snapshot level) t)
    { s with snapshot := none }

/-! #### Completion of a task -/

/-- The level update of a commit: erase the inputs by file id, append the output
to the target level. -/
def replaceInputs (levels : ℕ → List (Sst K)) (level : ℕ) (inputs : List (Sst K))
    (output : Sst K) : ℕ → List (Sst K) :=
  let inputFileIds := inputs.map Sst.id
  let erased := Function.update levels level
    ((levels level).filter fun sst => sst.id ∉ inputFileIds)
  let target := targetLevel cfg level
  Function.update erased target (erased target ++ [output])

/-- The commit of `_make_compaction_task`, which also passes on the
permission. -/
def commitTask (level : ℕ) (idx : ℕ) (task : CompactionTask K) (output : Sst K) :
    PartitionState K :=
  { s with
    levels := replaceInputs cfg s.levels level task.inputs output
    permits := Function.update s.permits level fun n =>
      if n = task.canWrite then s.permits level n - 1
      else if n = task.canWrite + 1 then s.permits level n + 1
      else s.permits level n
    tasks := Function.update s.tasks level ((s.tasks level).eraseIdx idx)
    nextFileId := max s.nextFileId (output.id + 1) }

/-- The error branch of `_make_compaction_task`. -/
def failTask (level : ℕ) (idx : ℕ) (task : CompactionTask K) : PartitionState K :=
  { s with
    compactionState := s.setCompactionState task.inputs .compactionError
    tasks := Function.update s.tasks level ((s.tasks level).set idx { task with failed := true }) }

/-! #### Manifest -/

def persistPartitionState : PartitionState K := { s with manifest := s.levels }

/-- `_load_partition` in a new process: the levels of the manifest, every SST
pickable, no task, and `created` recomputed.  File-object ids only have to be
distinct; the model keeps those of the files. -/
def loadPartition : PartitionState K :=
  { levels := s.manifest
    created := fun i => decide (s.manifest i ≠ [])
    manifest := s.manifest
    nextFileId := s.nextFileId }

end PartitionState

/-! ### Steps -/

/-- `Y` is older than `X`: smaller epoch, and every entry version older. -/
def Older (Y X : Sst K) : Prop :=
  Y.epoch < X.epoch ∧ ∀ r ∈ Y.entries, ∀ r' ∈ X.entries, r.stamp < r'.stamp

instance (Y X : Sst K) : Decidable (Older Y X) := by
  unfold Older; infer_instance

inductive PartitionStep (K : Type*)
  | push (sst : Sst K)
  | snapshot
  | launch (compactAll : Bool)
  | commit (level idx newIndexId : ℕ) (io : MergeIo K)
  | fail (level idx : ℕ)
  | persist
  | reload

/-- An SST as a flush of partition `p` hands it over: a fresh file, sorted and
decodable, newer than every SST of the partition. -/
@[mk_iff]
structure Flushed (cfg : SstManagerConfig) (p : ℕ) (s : PartitionState K) (sst : Sst K) :
    Prop where
  fresh : s.nextFileId ≤ sst.id
  partition : sst.upperBound = p
  sorted : sst.Sorted
  decodable : sst.AllDecodable
  newer : ∀ i < cfg.maxNumLevels, ∀ Y ∈ s.levels i, Older Y sst

instance (cfg : SstManagerConfig) (p : ℕ) (s : PartitionState K) (sst : Sst K) :
    Decidable (Flushed cfg p s sst) :=
  decidable_of_iff' _ (flushed_iff ..)

/-- One step of partition `p`. -/
def partitionStep (cfg : SstManagerConfig) (p : ℕ) (s : PartitionState K) :
    PartitionStep K → Option (PartitionState K)
  | .push sst => if Flushed cfg p s sst then some (s.pushNewSstsToL0 sst) else none
  | .snapshot =>
      match s.snapshot with
      | some _ => none
      | none => some { s with snapshot := some s.levels }
  | .launch compactAll =>
      match s.snapshot with
      | none => none
      | some snapshot => some (s.launchCompactionTasks cfg compactAll snapshot)
  | .commit level idx newIndexId io =>
      match (s.tasks level)[idx]? with
      | none => none
      | some task =>
          if task.failed = true ∨ s.permits level task.canWrite = 0 ∨ ¬ io.Serves task.inputs then
            none
          else
            match kWayMergeAsync2 io ⟨newIndexId, task.discardDeletedKeys⟩ s.nextFileId
              task.inputs with
            | .error _ => none
            | .ok out => some (s.commitTask cfg level idx task out.sst)
  | .fail level idx =>
      match (s.tasks level)[idx]? with
      | none => none
      | some task => if task.failed then none else some (s.failTask level idx task)
  | .persist => some s.persistPartitionState
  | .reload => some s.loadPartition

end HedgeDB
