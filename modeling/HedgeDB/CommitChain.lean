/-
HedgeDB/CommitChain.lean

The commits of one level (`_make_compaction_task` and the permission chain of
`launch_compaction_tasks` in `src/db/sst_manager.cc`).

The tasks launched on a (partition, level) pair are numbered.  Task `k` has
semaphore `k` as its `can_write` and semaphore `k + 1` as its `next_can_write`, so
`permissions[level]`, the tail of the chain, is the number of tasks.  The tasks of
one round run one after the other, those of different rounds side by side.  A merge
that succeeds waits for `can_write`, updates the levels and releases
`next_can_write`; one that fails marks its inputs and returns.

Each action here is one that another task can see.  In the partition of
`Compaction`, where a commit is one step, the same tasks commit and fail
(`chain_run_refines`).
-/
import Mathlib.Logic.Relation
import HedgeDB.Compaction
import HedgeDB.PermitChain

namespace HedgeDB

open PermitChain List Function Option

variable {K : Type*}

/-- Where `_make_compaction_task` is. -/
inductive CompactionPc (K : Type*)
  | queued
  | merging
  | merged (output : Sst K)
  | writing (output : Sst K)
  | committed
  | released
  | finished
  | failed
  deriving DecidableEq

namespace CompactionPc

/-- The task has returned. -/
def Finished (pc : CompactionPc K) : Prop := pc = finished ∨ pc = failed

instance [DecidableEq K] (pc : CompactionPc K) : Decidable pc.Finished :=
  inferInstanceAs (Decidable (_ ∨ _))

def stage : CompactionPc K → Stage
  | queued | merging => .working
  | merged _ => .waiting
  | writing _ | committed => .holding
  | released | finished => .passed
  | failed => .failed

/-- The task has taken its permit. -/
def HasPermit (pc : CompactionPc K) : Prop := pc.stage.Taken

/-- The task has updated the levels. -/
def isCommitted : CompactionPc K → Bool
  | committed | released | finished => true
  | _ => false

end CompactionPc

/-- The levels of a partition and the tasks launched on one of them.  `behind` marks
the tasks that are not the first of their round; `commits` records the order of the
updates. -/
structure LevelChain (K : Type*) where
  levels : ℕ → List (Sst K)
  launched : ℕ := 0
  inputs : ℕ → List (Sst K) := fun _ => []
  behind : ℕ → Bool := fun _ => false
  permits : ℕ → ℕ := initial
  pc : ℕ → CompactionPc K := fun _ => .queued
  commits : List ℕ := []

namespace LevelChain

variable (s : LevelChain K)

def setPc (k : ℕ) (pc : CompactionPc K) : LevelChain K :=
  { s with pc := update s.pc k pc }

/-- One bucket of a round: the new semaphore becomes the tail of the chain. -/
def launchBucket (isFirst : Bool) (inputs : List (Sst K)) : LevelChain K :=
  { s with
    launched := s.launched + 1
    inputs := update s.inputs s.launched inputs
    behind := update s.behind s.launched (!isFirst) }

/-- The buckets of a round, in order. -/
def launchLevel : Bool → List (List (Sst K)) → LevelChain K → LevelChain K
  | _, [], s => s
  | isFirst, inputs :: rest, s => launchLevel false rest (s.launchBucket isFirst inputs)

end LevelChain

/-- The actions: a round of the level, those of task `k`, and changes of the levels by
flushes and by tasks of other levels.  The result of a merge is its output, or `none`
when it fails. -/
inductive ChainAct (K : Type*)
  | launch (buckets : List (List (Sst K)))
  | begin (k : ℕ)
  | merge (k : ℕ) (result : Option (Sst K))
  | acquire (k : ℕ)
  | commit (k : ℕ)
  | release (k : ℕ)
  | finish (k : ℕ)
  | others (levels : ℕ → List (Sst K))

/-- One action on the chain of `level`. -/
def chainStep [DecidableEq K] (cfg : SstManagerConfig) (level : ℕ) (s : LevelChain K) :
    ChainAct K → Option (LevelChain K)
  | .launch buckets => some (s.launchLevel true buckets)
  -- `run_tasks_in_sequence`: the task before, of the same round, has returned
  | .begin k =>
      if k < s.launched ∧ s.pc k = .queued ∧ (s.behind k = true → (s.pc (k - 1)).Finished) then
        some (s.setPc k .merging)
      else none
  | .merge k result =>
      if s.pc k = .merging then
        match result with
        | some output => some (s.setPc k (.merged output))
        -- the error branch does not touch `next_can_write`
        | none => some (s.setPc k .failed)
      else none
  | .acquire k =>
      match s.pc k with
      | .merged output =>
          if 0 < s.permits k then
            some { s.setPc k (.writing output) with
              permits := update s.permits k (s.permits k - 1) }
          else none
      | _ => none
  | .commit k =>
      match s.pc k with
      | .writing output =>
          some { s.setPc k .committed with
            levels := PartitionState.replaceInputs cfg s.levels level (s.inputs k) output
            commits := s.commits ++ [k] }
      | _ => none
  | .release k =>
      if s.pc k = .committed then
        some { s.setPc k .released with
          permits := update s.permits (k + 1) (s.permits (k + 1) + 1) }
      else none
  -- the manifest is persisted and the inputs are unlinked
  | .finish k => if s.pc k = .released then some (s.setPc k .finished) else none
  | .others levels => some { s with levels }

/-- A chain without tasks. -/
def newChain (levels : ℕ → List (Sst K)) : LevelChain K := { levels }

/-! ### The chain in every run -/

def LevelChain.stages (s : LevelChain K) : ℕ → Stage := fun k => (s.pc k).stage

structure ChainOk (s : LevelChain K) : Prop where
  unlaunched : ∀ k, s.launched ≤ k → s.pc k = .queued
  chain : ∃ turn, Ok s.permits s.stages turn
  commits : s.commits = range s.commits.length
  committed : ∀ k, k < s.commits.length ↔ (s.pc k).isCommitted = true

variable {pc : CompactionPc K} {output : Sst K}

section Chain

variable {s : LevelChain K} {k : ℕ}

theorem newChain_ok (levels : ℕ → List (Sst K)) : ChainOk (newChain levels) :=
  ⟨fun _ _ => rfl, ⟨0, Ok.start⟩, rfl,
    fun k => ⟨fun h => absurd h (Nat.not_lt_zero k), fun h => by cases h⟩⟩

theorem stages_setPc (s : LevelChain K) (k : ℕ) (pc : CompactionPc K) :
    (s.setPc k pc).stages = update s.stages k pc.stage := by
  funext j
  show (update s.pc k pc j).stage = _
  by_cases hj : j = k
  · rw [hj, update_self, update_self]
  · rw [update_of_ne hj, update_of_ne hj]
    rfl

theorem ChainOk.lt_launched (h : ChainOk s) (hk : s.pc k ≠ .queued) : k < s.launched :=
  Nat.lt_of_not_le (mt (h.unlaunched k) hk)

theorem ChainOk.setPc (h : ChainOk s) (hk : k < s.launched) {permits : ℕ → ℕ} {turn : ℕ}
    (hchain : Ok permits (update s.stages k pc.stage) turn)
    (hcommitted : pc.isCommitted = (s.pc k).isCommitted) :
    ChainOk { s.setPc k pc with permits } := by
  refine ⟨fun j hj => ?_, ⟨turn, ?_⟩, h.commits, fun j => ?_⟩
  · exact (update_of_ne (Nat.ne_of_gt (hk.trans_le hj)) _ _).trans (h.unlaunched j hj)
  · have hstages := stages_setPc s k pc
    exact hstages ▸ hchain
  · refine (h.committed j).trans ?_
    show _ ↔ (update s.pc k pc j).isCommitted = true
    by_cases hj : j = k
    · rw [hj, update_self, hcommitted]
    · rw [update_of_ne hj]

theorem ChainOk.launchLevel (h : ChainOk s) (isFirst : Bool) (buckets : List (List (Sst K))) :
    ChainOk (s.launchLevel isFirst buckets) := by
  induction buckets generalizing s isFirst with
  | nil => exact h
  | cons inputs rest ih =>
    exact ih (s := s.launchBucket isFirst inputs)
      ⟨fun k hk => h.unlaunched k (Nat.le_of_succ_le hk), h.chain, h.commits, h.committed⟩ false

theorem isCommitted_of_passed (h : pc.stage = .passed) : pc.isCommitted = true := by
  cases pc with
  | released => rfl
  | finished => rfl
  | _ => cases h

theorem ChainOk.writing_eq (h : ChainOk s) (hk : s.pc k = .writing output) :
    k = s.commits.length := by
  obtain ⟨turn, hchain⟩ := h.chain
  refine hchain.holding_eq h.committed (fun j hj => isCommitted_of_passed hj)
    (congrArg CompactionPc.stage hk) ?_
  rw [hk]
  exact Bool.false_ne_true

theorem ChainOk.commit (h : ChainOk s) (hk : s.pc k = .writing output) {levels : ℕ → List (Sst K)} :
    ChainOk { s.setPc k .committed with levels, commits := s.commits ++ [k] } := by
  obtain ⟨turn, hchain⟩ := h.chain
  have hlt : k < s.launched := h.lt_launched (by rw [hk]; nofun)
  have heq := h.writing_eq hk
  have hsame : (s.setPc k .committed).stages = s.stages := by
    rw [stages_setPc, update_eq_self_iff]
    exact (congrArg CompactionPc.stage hk).symm
  refine ⟨fun j hj => ?_, ⟨turn, ?_⟩, ?_, fun j => ?_⟩
  · exact (update_of_ne (Nat.ne_of_gt (hlt.trans_le hj)) _ _).trans (h.unlaunched j hj)
  · exact hsame ▸ hchain
  · rw [heq]
    exact log_concat h.commits
  · rw [heq]
    refine (lt_length_log_concat h.committed j).trans ?_
    show _ ↔ (update s.pc s.commits.length .committed j).isCommitted = true
    by_cases hj : j = s.commits.length
    · rw [hj, update_self]
      exact iff_of_true (.inl rfl) rfl
    · rw [update_of_ne hj]
      exact or_iff_right hj

variable [DecidableEq K] {cfg : SstManagerConfig} {level : ℕ} {s' : LevelChain K}

theorem chainStep_ok (h : ChainOk s) {a : ChainAct K} (hstep : chainStep cfg level s a = some s') :
    ChainOk s' := by
  obtain ⟨turn, hchain⟩ := h.chain
  cases a with
  | launch buckets =>
    obtain rfl := some.inj hstep
    exact h.launchLevel true buckets
  | begin k =>
    obtain ⟨⟨hlt, hpc, -⟩, hs⟩ := ite_none_right_eq_some.mp hstep
    obtain rfl := some.inj hs
    have hstage : s.stages k = .working := congrArg CompactionPc.stage hpc
    refine h.setPc hlt (hchain.settle ?_ ?_) (by rw [hpc]; rfl)
    · rw [hstage]
      decide
    · exact (by decide : ¬ Stage.working.Taken)
  | merge k result =>
    obtain ⟨hpc, hs⟩ := ite_none_right_eq_some.mp hstep
    have hstage : s.stages k = .working := congrArg CompactionPc.stage hpc
    have hlt : k < s.launched := h.lt_launched (by rw [hpc]; nofun)
    have htaken : ¬ (s.stages k).Taken := by
      rw [hstage]
      decide
    rcases result with - | output
    · obtain rfl := some.inj hs
      exact h.setPc hlt (hchain.settle htaken (by decide : ¬ Stage.failed.Taken)) (by rw [hpc]; rfl)
    · obtain rfl := some.inj hs
      exact h.setPc hlt (hchain.settle htaken (by decide : ¬ Stage.waiting.Taken)) (by rw [hpc]; rfl)
  | acquire k =>
    rw [chainStep] at hstep
    split at hstep
    · next output hpc =>
      obtain ⟨hpermit, hs⟩ := ite_none_right_eq_some.mp hstep
      obtain rfl := some.inj hs
      exact h.setPc (h.lt_launched (by rw [hpc]; nofun)) (hchain.acquire hpermit).2
        (by rw [hpc]; rfl)
    · cases hstep
  | commit k =>
    rw [chainStep] at hstep
    split at hstep
    · next output hpc =>
      obtain rfl := some.inj hstep
      exact h.commit hpc
    · cases hstep
  | release k =>
    obtain ⟨hpc, hs⟩ := ite_none_right_eq_some.mp hstep
    obtain rfl := some.inj hs
    have hstage : s.stages k = .holding := congrArg CompactionPc.stage hpc
    exact h.setPc (h.lt_launched (by rw [hpc]; nofun)) (hchain.release hstage) (by rw [hpc]; rfl)
  | finish k =>
    obtain ⟨hpc, hs⟩ := ite_none_right_eq_some.mp hstep
    obtain rfl := some.inj hs
    have hsame : update s.stages k (CompactionPc.stage (.finished : CompactionPc K)) =
        s.stages := by
      rw [update_eq_self_iff]
      exact (congrArg CompactionPc.stage hpc).symm
    exact h.setPc (h.lt_launched (by rw [hpc]; nofun)) (hsame ▸ hchain) (by rw [hpc]; rfl)
  | others levels =>
    obtain rfl := some.inj hstep
    exact ⟨h.unlaunched, h.chain, h.commits, h.committed⟩

end Chain

/-! ### The partition's tasks -/

/-- What the partition does to the tasks of a level: the cases of `partitionStep`, and
changes of the levels by others. -/
inductive PartitionMove (cfg : SstManagerConfig) (level : ℕ) (p : PartitionState K) :
    PartitionState K → Prop
  | stay : PartitionMove cfg level p p
  | launch (buckets : List (List (Sst K))) :
      PartitionMove cfg level p (PartitionState.launchLevel cfg level true buckets p)
  | commit (idx : ℕ) (task : CompactionTask K) (output : Sst K) :
      (p.tasks level)[idx]? = some task → task.failed = false →
      p.permits level task.canWrite ≠ 0 →
      PartitionMove cfg level p (p.commitTask cfg level idx task output)
  | fail (idx : ℕ) (task : CompactionTask K) :
      (p.tasks level)[idx]? = some task → task.failed = false →
      PartitionMove cfg level p (p.failTask level idx task)
  | others (levels : ℕ → List (Sst K)) : PartitionMove cfg level p { p with levels }

/-- What a task of the partition has in common with one of the chain. -/
def CompactionTask.data (task : CompactionTask K) : List (Sst K) × ℕ × Bool :=
  (task.inputs, task.canWrite, task.failed)

def CompactionPc.isFailed : CompactionPc K → Bool
  | failed => true
  | _ => false

/-- The tasks that have not committed, as the partition lists them. -/
def LevelChain.open (c : LevelChain K) : List (List (Sst K) × ℕ × Bool) :=
  (range' c.commits.length (c.launched - c.commits.length)).map fun k =>
    (c.inputs k, k, (c.pc k).isFailed)

/-- The partition follows the chain: it lists the tasks that have not committed, and the
permit is at the first of them. -/
structure Tracks (level : ℕ) (c : LevelChain K) (p : PartitionState K) : Prop where
  levels : p.levels = c.levels
  permissions : p.permissions level = c.launched
  permits : p.permits level = fun n => if n = c.commits.length then 1 else 0
  tasks : (p.tasks level).map CompactionTask.data = c.open

section Refines

variable {cfg : SstManagerConfig} {level : ℕ} {c : LevelChain K} {p : PartitionState K}

theorem ChainOk.commits_le (h : ChainOk c) : c.commits.length ≤ c.launched := by
  by_contra hlt
  have hc := (h.committed c.launched).mp (by omega)
  rw [h.unlaunched _ le_rfl] at hc
  cases hc

variable {k : ℕ}

theorem Tracks.setPc (h : Tracks level c p) {permits : ℕ → ℕ}
    (hfailed : pc.isFailed = (c.pc k).isFailed) : Tracks level { c.setPc k pc with permits } p := by
  refine ⟨h.levels, h.permissions, h.permits, h.tasks.trans ?_⟩
  refine map_congr_left fun j _ => ?_
  show _ = (c.inputs j, j, (update c.pc k pc j).isFailed)
  by_cases hj : j = k
  · rw [hj, update_self, hfailed]
  · rw [update_of_ne hj]

theorem Tracks.launchBucket (h : Tracks level c p) (hok : ChainOk c) (isFirst : Bool)
    (inputs : List (Sst K)) :
    Tracks level (c.launchBucket isFirst inputs) (p.launchBucket cfg level isFirst inputs) := by
  have hle := hok.commits_le
  have hcount : c.launched + 1 - c.commits.length = c.launched - c.commits.length + 1 := by omega
  have hlast : c.commits.length + (c.launched - c.commits.length) = c.launched := by omega
  refine ⟨h.levels, ?_, h.permits, ?_⟩
  · show update p.permissions level (p.permissions level + 1) level = c.launched + 1
    rw [update_self, h.permissions]
  · show (update p.tasks level _ level).map CompactionTask.data = _
    rw [update_self, map_append, h.tasks, LevelChain.open, LevelChain.open]
    show _ = (range' c.commits.length (c.launched + 1 - c.commits.length)).map _
    rw [hcount, range'_concat, map_append, Nat.one_mul, hlast]
    congr 1
    · refine map_congr_left fun j hj => ?_
      have hne : j ≠ c.launched := by
        have := (mem_range'_1.mp hj).2
        omega
      show _ = (update c.inputs c.launched inputs j, j, _)
      rw [update_of_ne hne]
      rfl
    · show [(inputs, p.permissions level, false)] =
        [(update c.inputs c.launched inputs c.launched, c.launched, _)]
      rw [update_self, h.permissions, LevelChain.launchBucket, hok.unlaunched _ le_rfl]
      rfl

theorem Tracks.launchLevel (h : Tracks level c p) (hok : ChainOk c) (isFirst : Bool)
    (buckets : List (List (Sst K))) :
    Tracks level (c.launchLevel isFirst buckets)
      (PartitionState.launchLevel cfg level isFirst buckets p) := by
  induction buckets generalizing c p isFirst with
  | nil => exact h
  | cons inputs rest ih =>
    exact ih (h.launchBucket hok isFirst inputs) (hok.launchLevel isFirst [inputs]) false

theorem Tracks.task (h : Tracks level c p) (hk : c.commits.length ≤ k) (hlt : k < c.launched) :
    ∃ task, (p.tasks level)[k - c.commits.length]? = some task ∧
      task.data = (c.inputs k, k, (c.pc k).isFailed) := by
  have hget : c.open[k - c.commits.length]? = some (c.inputs k, k, (c.pc k).isFailed) := by
    rw [LevelChain.open, getElem?_map, getElem?_range' (by omega)]
    simp only [map_some, Nat.one_mul, Nat.add_sub_cancel' hk]
  rw [← h.tasks, getElem?_map] at hget
  obtain ⟨task, htask, hdata⟩ := map_eq_some_iff.mp hget
  exact ⟨task, htask, hdata⟩

/-- The task that writes is the first of the partition's list, and has the permit
there. -/
theorem Tracks.commit (h : Tracks level c p) (cfg : SstManagerConfig) (hok : ChainOk c)
    (hk : c.pc k = .writing output) :
    ∃ task, (p.tasks level)[0]? = some task ∧ task.failed = false ∧
      p.permits level task.canWrite ≠ 0 ∧
      Tracks level { c.setPc k .committed with
          levels := PartitionState.replaceInputs cfg c.levels level (c.inputs k) output
          commits := c.commits ++ [k] }
        (p.commitTask cfg level 0 task output) := by
  have hlt : k < c.launched := hok.lt_launched (by rw [hk]; nofun)
  obtain rfl := hok.writing_eq hk
  obtain ⟨task, htask, hdata⟩ := h.task le_rfl hlt
  rw [Nat.sub_self] at htask
  simp only [CompactionTask.data, Prod.mk.injEq] at hdata
  obtain ⟨hinputs, hcan, hfailed⟩ := hdata
  rw [hk] at hfailed
  refine ⟨task, htask, hfailed, ?_, ?_, h.permissions, ?_, ?_⟩
  · rw [h.permits, hcan]
    exact (if_pos rfl).trans_ne Nat.one_ne_zero
  · show PartitionState.replaceInputs cfg p.levels level task.inputs output = _
    rw [h.levels, hinputs]
  · rw [PartitionState.commitTask]
    dsimp only
    rw [update_self, h.permits, hcan, length_append, length_singleton]
    funext n
    by_cases hn : n = c.commits.length
    · simp [hn]
    · by_cases hn' : n = c.commits.length + 1
      · simp [hn']
      · simp [hn, hn']
  · show (update p.tasks level ((p.tasks level).eraseIdx 0) level).map _ = _
    have hcount : c.launched - c.commits.length = c.launched - (c.commits.length + 1) + 1 := by omega
    rw [update_self, eraseIdx_zero, map_tail, h.tasks, LevelChain.open,
      LevelChain.open, hcount, range'_succ, map_cons, tail_cons]
    show _ = (range' (c.commits ++ [_]).length (c.launched - (c.commits ++ [_]).length)).map _
    rw [length_append, length_singleton]
    refine map_congr_left fun j hj => ?_
    have hne : j ≠ c.commits.length := by
      have := (mem_range'_1.mp hj).1
      omega
    show _ = (c.inputs j, j, (update c.pc _ .committed j).isFailed)
    rw [update_of_ne hne]

theorem Tracks.fail (h : Tracks level c p) (hok : ChainOk c) (hk : c.pc k = .merging) :
    ∃ idx task, (p.tasks level)[idx]? = some task ∧ task.failed = false ∧
      Tracks level (c.setPc k .failed) (p.failTask level idx task) := by
  have hlt : k < c.launched := hok.lt_launched (by rw [hk]; nofun)
  have hle : c.commits.length ≤ k := by
    by_contra hgt
    have hc := (hok.committed k).mp (by omega)
    rw [hk] at hc
    cases hc
  obtain ⟨task, htask, hdata⟩ := h.task hle hlt
  have hdata' := hdata
  simp only [CompactionTask.data, Prod.mk.injEq] at hdata
  obtain ⟨hinputs, hcan, hfailed⟩ := hdata
  rw [hk] at hfailed
  refine ⟨k - c.commits.length, task, htask, hfailed, h.levels, h.permissions, h.permits, ?_⟩
  show (update p.tasks level _ level).map CompactionTask.data = _
  rw [update_self, map_set, h.tasks]
  have hnew : ({ task with failed := true } : CompactionTask K).data = (c.inputs k, k, true) := by
    rw [← hinputs, ← hcan]
    rfl
  rw [hnew]
  refine ext_getElem? fun i => ?_
  rw [getElem?_set, LevelChain.open, LevelChain.open, getElem?_map, getElem?_map,
    length_map, length_range']
  show _ = (range' c.commits.length (c.launched - c.commits.length))[i]?.map fun j =>
    (c.inputs j, j, (update c.pc k .failed j).isFailed)
  by_cases hi : i < c.launched - c.commits.length
  · rw [getElem?_range' hi, Nat.one_mul]
    by_cases hik : k - c.commits.length = i
    · have hj : c.commits.length + i = k := by omega
      rw [if_pos hik, if_pos (by omega), hj, map_some, update_self]
      rfl
    · rw [if_neg hik, map_some, map_some, update_of_ne (by omega)]
  · have hnone : (range' c.commits.length (c.launched - c.commits.length))[i]? = none :=
      getElem?_eq_none (by rw [length_range']; omega)
    rw [hnone, if_neg (by omega)]
    rfl

/-- **The chain refines the partition.**  Every action on the chain is a step of the
partition's tasks, or none. -/
theorem chainStep_refines [DecidableEq K] (h : Tracks level c p) (hok : ChainOk c)
    {a : ChainAct K} {c' : LevelChain K} (hstep : chainStep cfg level c a = some c') :
    ∃ p', PartitionMove cfg level p p' ∧ Tracks level c' p' := by
  cases a with
  | launch buckets =>
    obtain rfl := some.inj hstep
    exact ⟨_, .launch buckets, h.launchLevel hok true buckets⟩
  | begin k =>
    obtain ⟨⟨-, hpc, -⟩, hs⟩ := ite_none_right_eq_some.mp hstep
    obtain rfl := some.inj hs
    exact ⟨p, .stay, h.setPc (by rw [hpc]; rfl)⟩
  | merge k result =>
    obtain ⟨hpc, hs⟩ := ite_none_right_eq_some.mp hstep
    rcases result with - | output
    · obtain rfl := some.inj hs
      obtain ⟨idx, task, htask, hfailed, htracks⟩ := h.fail hok hpc
      exact ⟨_, .fail idx task htask hfailed, htracks⟩
    · obtain rfl := some.inj hs
      exact ⟨p, .stay, h.setPc (by rw [hpc]; rfl)⟩
  | acquire k =>
    rw [chainStep] at hstep
    split at hstep
    · next output hpc =>
      obtain ⟨-, hs⟩ := ite_none_right_eq_some.mp hstep
      obtain rfl := some.inj hs
      exact ⟨p, .stay, h.setPc (by rw [hpc]; rfl)⟩
    · cases hstep
  | commit k =>
    rw [chainStep] at hstep
    split at hstep
    · next output hpc =>
      obtain rfl := some.inj hstep
      obtain ⟨task, htask, hfailed, hpermit, htracks⟩ := h.commit cfg hok hpc
      exact ⟨_, .commit 0 task output htask hfailed hpermit, htracks⟩
    · cases hstep
  | release k =>
    obtain ⟨hpc, hs⟩ := ite_none_right_eq_some.mp hstep
    obtain rfl := some.inj hs
    exact ⟨p, .stay, h.setPc (by rw [hpc]; rfl)⟩
  | finish k =>
    obtain ⟨hpc, hs⟩ := ite_none_right_eq_some.mp hstep
    obtain rfl := some.inj hs
    exact ⟨p, .stay, h.setPc (by rw [hpc]; rfl)⟩
  | others levels =>
    obtain rfl := some.inj hstep
    exact ⟨_, .others levels, rfl, h.permissions, h.permits, h.tasks⟩

theorem LevelChain.launchLevel_levels (isFirst : Bool) (buckets : List (List (Sst K)))
    (s : LevelChain K) : (s.launchLevel isFirst buckets).levels = s.levels := by
  induction buckets generalizing isFirst s with
  | nil => rfl
  | cons inputs rest ih => exact ih false _

theorem chainStep_levels [DecidableEq K] {a : ChainAct K} {c' : LevelChain K}
    (hstep : chainStep cfg level c a = some c')
    (hcommits : c'.commits.length = c.commits.length) :
    c'.levels = c.levels ∨ a = .others c'.levels := by
  cases a with
  | launch buckets =>
    obtain rfl := some.inj hstep
    exact .inl (LevelChain.launchLevel_levels ..)
  | merge k result => cases result <;> grind [chainStep, LevelChain.setPc]
  | _ => grind [chainStep, LevelChain.setPc]

end Refines

/-- **The commit chain, exactly.**  In every state a run reaches: when the tasks before
`k` have finished and task `k` has not taken its permit (`k` may be the tail of the
chain), its `can_write` is available if and only if no merge before it failed.  Tasks
always commit in the order in which they were launched. -/
theorem can_write_available_iff [DecidableEq K] (cfg : SstManagerConfig) (level : ℕ)
    (levels : ℕ → List (Sst K)) (as : List (ChainAct K)) (s : LevelChain K)
    (hrun : Run.exec (chainStep cfg level) (newChain levels) as = some s) :
    (∀ k ≤ s.launched, (∀ j < k, (s.pc j).Finished) → ¬ (s.pc k).HasPermit →
        (0 < s.permits k ↔ ∀ j < k, s.pc j ≠ .failed)) ∧
      s.commits = range s.commits.length := by
  have hok : ChainOk s := Run.exec_invariant (C := fun _ _ => True)
    (fun _ _ _ h _ hstep => chainStep_ok h hstep) (newChain_ok levels) (Run.allSteps_true _ _) hrun
  obtain ⟨turn, hchain⟩ := hok.chain
  refine ⟨fun k _ hfinished hpermit => ?_, hok.commits⟩
  have hover : ∀ j < k, (s.stages j).Over := by
    intro j hj
    rcases hfinished j hj with h | h
    · exact .inl (congrArg CompactionPc.stage h)
    · exact .inr (congrArg CompactionPc.stage h)
  have hfailed : ∀ j, s.stages j = .failed ↔ s.pc j = .failed := by
    intro j
    refine ⟨fun h => ?_, fun h => congrArg CompactionPc.stage h⟩
    change (s.pc j).stage = .failed at h
    revert h
    rcases s.pc j with - | - | out | out | - | - | - | - <;> intro h
    case failed => rfl
    all_goals cases h
  rw [hchain.available_iff hover hpermit]
  exact forall₂_congr fun j _ => not_congr (hfailed j)

def chainSst (id : ℕ) : Sst ℕ := ⟨id, id, id, 65535, id, [⟨id, id, [1, 1]⟩]⟩

/-- Two rounds of one bucket; the second merge is over first. -/
def chainRun : List (ChainAct ℕ) :=
  [ .launch [[chainSst 0, chainSst 1]], .launch [[chainSst 2, chainSst 3]], .begin 0, .begin 1,
    .merge 1 (some (chainSst 5)), .merge 0 (some (chainSst 4)), .acquire 0, .commit 0, .release 0,
    .finish 0 ]

theorem can_write_available_second : ∃ s,
    Run.exec (chainStep {} 0) (newChain fun _ => []) chainRun = some s ∧ 0 < s.permits 1 ∧
      s.commits = [0] := by
  obtain ⟨s, hrun, hlaunched, hfirst, hsecond, hcommits⟩ : ∃ s,
      Run.exec (chainStep {} 0) (newChain fun _ => []) chainRun = some s ∧ s.launched = 2 ∧
        s.pc 0 = .finished ∧ s.pc 1 = .merged (chainSst 5) ∧ s.commits = [0] :=
    ⟨_, rfl, rfl, rfl, rfl, rfl⟩
  have hprior : ∀ j < 1, s.pc j = .finished := fun j hj => by
    obtain rfl : j = 0 := by omega
    exact hfirst
  refine ⟨s, hrun, ((can_write_available_iff {} 0 _ chainRun s hrun).1 1 (by omega) ?_ ?_).mpr ?_,
    hcommits⟩
  · exact fun j hj => .inl (hprior j hj)
  · rw [CompactionPc.HasPermit, hsecond]
    exact (by decide : ¬ Stage.waiting.Taken)
  · intro j hj hfail
    rw [hprior j hj] at hfail
    cases hfail

/-- A merge fails; the next task of the chain never gets its permit. -/
theorem can_write_lost_on_failure : ∃ s,
    Run.exec (chainStep {} 0) (newChain fun _ => [])
        [ .launch [[chainSst 0, chainSst 1]], .launch [[chainSst 2, chainSst 3]], .begin 0, .begin 1,
          .merge 0 none, .merge 1 (some (chainSst 5)) ] = some s ∧
      (∀ j < 1, (s.pc j).Finished) ∧ s.pc 1 = .merged (chainSst 5) ∧ s.permits 1 = 0 := by
  refine ⟨_, rfl, fun j hj => ?_, rfl, rfl⟩
  obtain rfl : j = 0 := by omega
  exact .inr rfl

/-- **The chain refines the partition over every run**: what the tasks do, step by step, is what
the partition of `Compaction` can do, where a commit is one step.  The levels change with the
permit, or as the run says that others change them. -/
theorem chain_run_refines [DecidableEq K] (cfg : SstManagerConfig) (level : ℕ)
    (levels : ℕ → List (Sst K)) (as : List (ChainAct K)) (s : LevelChain K)
    (hrun : Run.exec (chainStep cfg level) (newChain levels) as = some s) :
    ∃ p, Relation.ReflTransGen (fun q q' => PartitionMove cfg level q q' ∧
        (q'.permits = q.permits → q'.levels = q.levels ∨ .others q'.levels ∈ as)) { levels } p ∧
      Tracks level s p := by
  refine (Run.exec_invariant (C := fun _ a => a ∈ as) (I := fun c => ChainOk c ∧ ∃ p,
    Relation.ReflTransGen _ { levels } p ∧ Tracks level c p)
    (fun c a c' h ha hstep => ?_) ⟨newChain_ok levels, _, .refl, rfl, rfl, rfl, rfl⟩
    (Run.allSteps_of_forall fun _ => id) hrun).2
  obtain ⟨hok, p, hmoves, htracks⟩ := h
  obtain ⟨p', hmove, htracks'⟩ := chainStep_refines htracks hok hstep
  refine ⟨chainStep_ok hok hstep, p', hmoves.tail ⟨hmove, fun hpermits => ?_⟩, htracks'⟩
  have hcommits := congrFun₂ hpermits level c.commits.length
  rw [htracks.permits, htracks'.permits] at hcommits
  rw [htracks.levels, htracks'.levels]
  refine (chainStep_levels hstep (by grind)).imp_right ?_
  rintro rfl
  exact ha

theorem chain_run_refines_chainRun : ∃ s p,
    Run.exec (chainStep {} 0) (newChain fun _ => []) chainRun = some s ∧ Tracks 0 s p :=
  ⟨_, (chain_run_refines {} 0 _ chainRun _ rfl).imp fun _ h => ⟨rfl, h.2⟩⟩

end HedgeDB
