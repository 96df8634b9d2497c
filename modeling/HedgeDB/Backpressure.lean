/-
HedgeDB/Backpressure.lean

The pressure that pending compactions put on flushes
(`_update_pending_compactions_counter`, `launch_compaction_tasks`, `_make_compaction_task`
of `src/db/sst_manager.cc`).

The manager counts the inputs of the tasks of level 0 that have been launched and have not
finished.  Pressure is switched on when the count is above a threshold and off when it is
below: at the threshold it stays as it is.  With a positive threshold the count of an idle
manager is below it, and the pressure off.  With threshold 0 nothing is below it, and the
pressure of the first compaction never ends (`backpressure_follows_iff`).
-/
import HedgeDB.Run
import HedgeDB.Types
import Mathlib.Algebra.Order.BigOperators.Group.List
import Mathlib.Algebra.Order.Ring.Int

namespace HedgeDB

open List

/-- The fields of `sst_manager::config` that the counter reads. -/
structure BackpressureConfig where
  sstsInL0BlockWriteThreshold : Option ℕ := some 40
  numPartitionExponent : ℕ := 4
  deriving DecidableEq, Repr

/-- `static_cast<int64_t>`, and where a product of two of them ends. -/
def toInt64 (n : ℤ) : ℤ := n.bmod (2 ^ 64)

def BackpressureConfig.threshold (cfg : BackpressureConfig) : ℤ :=
  match cfg.sstsInL0BlockWriteThreshold with
  | none => 2 ^ 63 - 1
  | some n => toInt64 (toInt64 n * 2 ^ cfg.numPartitionExponent)

structure PendingTask where
  level : ℕ
  inputs : ℕ
  deriving DecidableEq, Repr

/-- `_pending_compacting_sst_for_backpressure_count`, `_compaction_backpressure`, and the
tasks that have not finished. -/
structure PressureState where
  count : ℤ := 0
  pressure : Bool := false
  pending : List PendingTask := []
  deriving DecidableEq, Repr

/-- A task is launched, or one of those pending ends: a merge that failed reports its end
like one that succeeded. -/
inductive PressureAct
  | launch (task : PendingTask)
  | finish (i : ℕ) (merged : Bool)
  deriving DecidableEq, Repr

def updatePendingCompactionsCounter (cfg : BackpressureConfig) (s : PressureState) (n : ℤ) :
    PressureState :=
  let count := s.count + n
  if s.pressure = false ∧ count > cfg.threshold then { s with count, pressure := true }
  else if s.pressure = true ∧ count < cfg.threshold then { s with count, pressure := false }
  else { s with count }

/-- The calls of `launch_compaction_tasks` and at the end of `_make_compaction_task`. -/
def pressureStep (cfg : BackpressureConfig) (s : PressureState) : PressureAct → Option PressureState
  | .launch task =>
      let s := { s with pending := s.pending ++ [task] }
      if task.level = 0 then some (updatePendingCompactionsCounter cfg s (toInt32 task.inputs))
      else some s
  | .finish i _ =>
      match s.pending[i]? with
      | none => none
      | some task =>
          let s := { s with pending := s.pending.eraseIdx i }
          if task.level = 0 then some (updatePendingCompactionsCounter cfg s (-toInt32 task.inputs))
          else some s

def PendingTask.counted (task : PendingTask) : ℤ := if task.level = 0 then task.inputs else 0

/-- The number of inputs of the tasks of level 0 that have been launched and not finished. -/
def PressureState.backlog (s : PressureState) : ℤ := (s.pending.map PendingTask.counted).sum

structure PressureState.Follows (cfg : BackpressureConfig) (s : PressureState) : Prop where
  count : s.count = s.backlog
  nonneg : 0 ≤ s.count
  on : cfg.threshold < s.count → s.pressure = true
  off : (∀ task ∈ s.pending, task.level ≠ 0) → s.pressure = false

/-- The number of inputs of a task fits the type of the argument. -/
def PressureAct.Narrow : PressureAct → Prop
  | .launch task => task.inputs < 2 ^ 31
  | .finish _ _ => True

instance decidableNarrow : (a : PressureAct) → Decidable a.Narrow
  | .launch task => inferInstanceAs (Decidable (task.inputs < 2 ^ 31))
  | .finish _ _ => inferInstanceAs (Decidable True)

/-! ### One call -/

section Update

variable {cfg : BackpressureConfig} {s s' : PressureState} {n : ℤ}

/-- What holds after a call: the pressure is off below the threshold and on above. -/
structure FlagSettled (cfg : BackpressureConfig) (s : PressureState) : Prop where
  above : cfg.threshold < s.count → s.pressure = true
  below : s.count < cfg.threshold → s.pressure = false

theorem update_fields (cfg : BackpressureConfig) (s : PressureState) (n : ℤ) :
    (updatePendingCompactionsCounter cfg s n).count = s.count + n ∧
      (updatePendingCompactionsCounter cfg s n).pending = s.pending := by
  rw [updatePendingCompactionsCounter]
  split
  · exact ⟨rfl, rfl⟩
  · split <;> exact ⟨rfl, rfl⟩

theorem update_settled (cfg : BackpressureConfig) (s : PressureState) (n : ℤ) :
    FlagSettled cfg (updatePendingCompactionsCounter cfg s n) := by
  rw [updatePendingCompactionsCounter]
  split
  · next hon => exact ⟨fun _ => rfl, fun hbelow => absurd hbelow (not_lt.mpr hon.2.le)⟩
  · next hon =>
    split
    · next hoff => exact ⟨fun habove => absurd habove (not_lt.mpr hoff.2.le), fun _ => rfl⟩
    · next hoff =>
      -- neither switch applies
      refine ⟨fun habove => ?_, fun hbelow => ?_⟩
      · rcases hp : s.pressure with - | -
        · exact absurd ⟨hp, habove⟩ hon
        · rfl
      · rcases hp : s.pressure with - | -
        · rfl
        · exact absurd ⟨hp, hbelow⟩ hoff

end Update

/-! ### Runs -/

theorem counted_nonneg (task : PendingTask) : 0 ≤ task.counted := by
  rw [PendingTask.counted]
  split
  · exact Int.natCast_nonneg _
  · exact le_rfl

theorem sum_counted_eraseIdx {pending : List PendingTask} {i : ℕ} {task : PendingTask}
    (h : pending[i]? = some task) :
    ((pending.eraseIdx i).map PendingTask.counted).sum =
      (pending.map PendingTask.counted).sum - task.counted := by
  induction pending generalizing i with
  | nil => cases h
  | cons head rest ih =>
    rcases i with - | i
    · obtain rfl : head = task := Option.some.inj h
      simp
    · have hrest := ih (i := i) (by simpa using h)
      simp only [eraseIdx_cons_succ, map_cons, sum_cons, hrest]
      omega

structure PressureOk (cfg : BackpressureConfig) (s : PressureState) : Prop where
  count : s.count = s.backlog
  narrow : ∀ task ∈ s.pending, task.inputs < 2 ^ 31
  settled : FlagSettled cfg s

section Runs

variable {cfg : BackpressureConfig} {s s' : PressureState}

theorem PressureOk.report (h : PressureOk cfg s) (pending : List PendingTask) (level : ℕ) {n : ℤ}
    (hnarrow : ∀ task ∈ pending, task.inputs < 2 ^ 31)
    (hsum : (pending.map PendingTask.counted).sum = s.backlog + if level = 0 then n else 0)
    (hstep : (if level = 0 then some (updatePendingCompactionsCounter cfg { s with pending } n)
      else some { s with pending }) = some s') : PressureOk cfg s' := by
  split at hstep
  · next hlevel =>
    cases hstep
    obtain ⟨hcount, hpending⟩ := update_fields cfg { s with pending } n
    refine ⟨?_, hpending ▸ hnarrow, update_settled ..⟩
    rw [hcount, PressureState.backlog, hpending, hsum, if_pos hlevel, ← h.count]
  · next hlevel =>
    cases hstep
    refine ⟨?_, hnarrow, ⟨h.settled.above, h.settled.below⟩⟩
    show s.count = (pending.map PendingTask.counted).sum
    rw [hsum, if_neg hlevel, h.count, add_zero]

theorem pressureStep_ok {a : PressureAct} (h : PressureOk cfg s) (hnarrow : a.Narrow)
    (hstep : pressureStep cfg s a = some s') : PressureOk cfg s' := by
  cases a with
  | launch task =>
    refine h.report (s.pending ++ [task]) task.level ?_ ?_ hstep
    · intro t ht
      rcases mem_append.mp ht with ht | ht
      · exact h.narrow t ht
      · rw [mem_singleton.mp ht]
        exact hnarrow
    · rw [toInt32_of_lt hnarrow]
      simp [PressureState.backlog, PendingTask.counted]
  | finish i merged =>
    rcases hi : s.pending[i]? with - | task
    · simp [pressureStep, hi] at hstep
    · simp only [pressureStep, hi] at hstep
      have hmem : task ∈ s.pending := mem_of_getElem? hi
      refine h.report (s.pending.eraseIdx i) task.level ?_ ?_ hstep
      · intro t ht
        exact h.narrow t (mem_of_mem_eraseIdx ht)
      · rw [sum_counted_eraseIdx hi, toInt32_of_lt (h.narrow task hmem), PendingTask.counted]
        split <;> simp [PressureState.backlog, sub_eq_add_neg]

theorem PressureOk.follows (h : PressureOk cfg s) (hpos : 0 < cfg.threshold) : s.Follows cfg where
  count := h.count
  nonneg := by
    rw [h.count]
    apply sum_nonneg
    intro n hn
    obtain ⟨task, -, rfl⟩ := mem_map.mp hn
    exact counted_nonneg task
  on := h.settled.above
  off := by
    intro hidle
    have hzero : s.backlog = 0 := by
      apply sum_eq_zero
      intro n hn
      obtain ⟨task, htask, rfl⟩ := mem_map.mp hn
      exact if_neg (hidle task htask)
    apply h.settled.below
    rw [h.count, hzero]
    exact hpos

end Runs

theorem exec_launch_finish {cfg : BackpressureConfig} (h : cfg.threshold ≤ 0) :
    Run.exec (pressureStep cfg) {} [.launch ⟨0, 2⟩, .finish 0 true] =
      some { count := 0, pressure := true, pending := [] } := by
  have hlaunch : pressureStep cfg {} (.launch ⟨0, 2⟩) =
      some { count := 2, pressure := true, pending := [⟨0, 2⟩] } := by
    show some (updatePendingCompactionsCounter cfg { pending := [⟨0, 2⟩] } 2) = _
    rw [updatePendingCompactionsCounter, if_pos ⟨rfl, show (2 : ℤ) > cfg.threshold by omega⟩]
    rfl
  have hfinish : pressureStep cfg { count := 2, pressure := true, pending := [⟨0, 2⟩] } (.finish 0 true) =
      some { count := 0, pressure := true, pending := [] } := by
    show some (updatePendingCompactionsCounter cfg { count := 2, pressure := true } (-2)) = _
    rw [updatePendingCompactionsCounter, if_neg (by simp),
      if_neg (fun hoff => absurd hoff.2 (show ¬(0 : ℤ) < cfg.threshold by omega))]
    rfl
  rw [Run.exec_cons hlaunch, Run.exec_cons hfinish]
  rfl

/-- **When the pressure follows the backlog.**  In every run of launches and ends of tasks, if
and only if the threshold is positive. -/
theorem backpressure_follows_iff (cfg : BackpressureConfig) :
    (∀ (acts : List PressureAct) (s : PressureState), (∀ a ∈ acts, a.Narrow) →
      Run.exec (pressureStep cfg) {} acts = some s → s.Follows cfg) ↔ 0 < cfg.threshold := by
  constructor
  · intro hall
    by_contra hle
    -- one compaction of level 0 switches the pressure on, and its end does not switch it off
    have hrun := exec_launch_finish (not_lt.mp hle)
    have hoff := (hall _ _ (by decide) hrun).off (by simp)
    cases hoff
  · intro hpos acts s hnarrow hrun
    have hstart : PressureOk cfg {} :=
      ⟨rfl, by simp, ⟨fun habove => absurd habove hpos.not_gt, fun _ => rfl⟩⟩
    have hok : PressureOk cfg s :=
      Run.exec_invariant (C := fun _ a => a.Narrow) (fun _ _ _ => pressureStep_ok) hstart
        (Run.allSteps_of_forall hnarrow) hrun
    exact hok.follows hpos

/-- The default threshold, in sixteen partitions. -/
theorem backpressure_follows_default :
    ∃ s, Run.exec (pressureStep {}) {} [.launch ⟨0, 700⟩, .launch ⟨1, 4⟩, .finish 0 false] = some s ∧
      s.Follows {} := by
  have hrun : Run.exec (pressureStep {}) {} [.launch ⟨0, 700⟩, .launch ⟨1, 4⟩, .finish 0 false] =
      some { count := 0, pressure := false, pending := [⟨1, 4⟩] } := by decide
  exact ⟨_, hrun, (backpressure_follows_iff {}).mpr (by decide) _ _ (by decide) hrun⟩

/-- **With threshold 0 the pressure stays on** when nothing is pending any more. -/
theorem zero_threshold_keeps_pressure :
    Run.exec (pressureStep { sstsInL0BlockWriteThreshold := some 0 }) {}
        [.launch ⟨0, 4⟩, .finish 0 true] =
      some { count := 0, pressure := true, pending := [] } := by
  decide

end HedgeDB
