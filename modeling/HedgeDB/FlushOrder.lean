/-
HedgeDB/FlushOrder.lean

The order in which tables are switched out and published.

`SwitchedInOrder` is what the switches of every run look like.  `Memtable`, which
numbers tables by the order in which they become current, appends pending tables at
the end and publishes in order, takes this for granted.

The permits are a `PermitChain`: a flush publishes in its turn, so L0 gets the tables
in order.  A flush that fails keeps the permit, which `flush_permit_available_iff`
makes precise.
-/
import HedgeDB.FlushChain
import HedgeDB.RwSync
import Mathlib.Data.List.Nodup

namespace HedgeDB

open Interleave PermitChain List Function Option

variable {ι : Type*}

/-! ### Publication -/

def FlushPc.stage : FlushPc → Stage
  | draining | writing => .working
  | written => .waiting
  | permitted | published => .holding
  | released | slotReleased | finished => .passed
  | failing | failed => .failed

/-- The SSTs of the flush are in L0. -/
def FlushPc.isPublished : FlushPc → Bool
  | published | released | slotReleased | finished => true
  | _ => false

/-- The flush has handed on its permit or has failed. -/
def FlushPc.isOver : FlushPc → Bool
  | finished | failed => true
  | _ => false

def SwitchState.stages (g : SwitchState ι) : ℕ → Stage := fun k => (g.taskPc k).stage

structure PublishOk (g : SwitchState ι) : Prop where
  unlaunched : ∀ k, g.tasks.length ≤ k → g.taskPc k = .draining
  chain : ∃ turn, Ok g.permits g.stages turn
  l0 : g.l0 = range g.l0.length
  published : ∀ k, k < g.l0.length ↔ (g.taskPc k).isPublished = true
  pending : g.pendingFlushes = g.inserted.drop g.l0.length

section Publish

variable {g g' : SwitchState ι} {i : ℕ}

theorem PublishOk.start (maxPendingFlushes flushEpoch : ℕ) :
    PublishOk (newFlusher ι maxPendingFlushes flushEpoch).shared :=
  ⟨fun _ _ => rfl, ⟨0, Ok.start⟩, rfl,
    fun k => ⟨fun h => absurd h (Nat.not_lt_zero k), fun h => by cases h⟩, rfl⟩

theorem SwitchState.stages_setPc (g : SwitchState ι) (i : ℕ) (pc : FlushPc) :
    (g.setPc i pc).stages = update g.stages i pc.stage := by
  funext j
  show (update g.taskPc i pc j).stage = _
  by_cases hj : j = i
  · rw [hj, update_self, update_self]
  · rw [update_of_ne hj, update_of_ne hj]
    rfl

variable {pc : FlushPc}

theorem PublishOk.setPc (h : PublishOk g) (hi : i < g.tasks.length) {permits : ℕ → ℕ}
    {flushSlots turn : ℕ} (hchain : Ok permits (update g.stages i pc.stage) turn)
    (hpublished : pc.isPublished = (g.taskPc i).isPublished) :
    PublishOk { g.setPc i pc with permits, flushSlots } := by
  refine ⟨fun j hj => ?_, ⟨turn, ?_⟩, h.l0, fun j => ?_, h.pending⟩
  · exact (update_of_ne (Nat.ne_of_gt (hi.trans_le hj)) _ _).trans (h.unlaunched j hj)
  · have hstages := g.stages_setPc i pc
    exact hstages ▸ hchain
  · refine (h.published j).trans ?_
    show _ ↔ (update g.taskPc i pc j).isPublished = true
    by_cases hj : j = i
    · rw [hj, update_self, hpublished]
    · rw [update_of_ne hj]

theorem PublishOk.setPc_same (h : PublishOk g) (hi : i < g.tasks.length) {flushSlots : ℕ}
    (hstage : pc.stage = (g.taskPc i).stage)
    (hpublished : pc.isPublished = (g.taskPc i).isPublished) :
    PublishOk { g.setPc i pc with flushSlots } := by
  obtain ⟨turn, hchain⟩ := h.chain
  have hsame : update g.stages i pc.stage = g.stages :=
    update_eq_self_iff.mpr hstage
  exact h.setPc hi (hsame ▸ hchain) hpublished

theorem PublishOk.l0_le (h : PublishOk g) : g.l0.length ≤ g.tasks.length := by
  by_contra hlt
  have hp := (h.published g.tasks.length).mp (by omega)
  rw [h.unlaunched _ le_rfl] at hp
  cases hp

theorem isPublished_of_passed (h : pc.stage = .passed) : pc.isPublished = true := by
  cases pc with
  | released | slotReleased | finished => rfl
  | _ => cases h

theorem PublishOk.permitted_eq (h : PublishOk g) (hi : g.taskPc i = .permitted) :
    i = g.l0.length := by
  obtain ⟨turn, hchain⟩ := h.chain
  refine hchain.holding_eq h.published (fun j hj => isPublished_of_passed hj)
    (congrArg FlushPc.stage hi) ?_
  rw [hi]
  exact Bool.false_ne_true

theorem SwitchOk.task (h : SwitchOk g) {task : FlushTask} (htask : g.tasks[i]? = some task) :
    i < g.tasks.length ∧ g.inserted[i]? = some task.data ∧ task.table = i ∧ task.canWrite = i := by
  have hlt : i < g.tasks.length := (List.getElem?_eq_some_iff.mp htask).1
  have hinserted : g.inserted[i]? = some task.data := by
    rw [← List.getElem?_take_of_lt hlt, ← h.tasks, List.getElem?_map, htask]
    rfl
  have htable : (g.inserted.map Prod.snd)[i]? = some task.table := by
    rw [List.getElem?_map, hinserted]
    rfl
  have hposition : (g.tasks.map FlushTask.canWrite)[i]? = some task.canWrite := by
    rw [List.getElem?_map, htask]
    rfl
  rw [h.inserted] at htable
  rw [h.positions] at hposition
  refine ⟨hlt, hinserted, ?_, ?_⟩
  · obtain ⟨_, heq⟩ := List.getElem?_eq_some_iff.mp htable
    rw [← heq, getElem_range]
  · obtain ⟨_, heq⟩ := List.getElem?_eq_some_iff.mp hposition
    rw [← heq, getElem_range]

theorem SwitchOk.erase (h : SwitchOk g) {q : ℕ × ℕ} (hq : g.inserted[i]? = some q) :
    (g.inserted.drop i).filter (fun r => r.1 ≠ q.1) = g.inserted.drop (i + 1) := by
  obtain ⟨hlt, hget⟩ := List.getElem?_eq_some_iff.mp hq
  have hsorted : ((g.inserted.drop i).map Prod.fst).Pairwise (· < ·) := by
    rw [map_drop]
    exact h.epochs.drop
  rw [drop_eq_getElem_cons hlt, hget] at hsorted ⊢
  rw [map_cons, pairwise_cons] at hsorted
  rw [filter_cons_of_neg (by simp), filter_eq_self]
  intro r hr
  exact decide_eq_true (hsorted.1 r.1 (mem_map_of_mem hr)).ne'

theorem PublishOk.publish (h : PublishOk g) (hs : SwitchOk g) {task : FlushTask}
    (htask : g.tasks[i]? = some task) (hpc : g.taskPc i = .permitted) :
    PublishOk { g.setPc i .published with
      pendingFlushes := g.pendingFlushes.filter fun q => q.1 ≠ task.epoch
      l0 := g.l0 ++ [task.table] } := by
  obtain ⟨turn, hchain⟩ := h.chain
  obtain ⟨hi, hinserted, htable, -⟩ := hs.task htask
  have heq := h.permitted_eq hpc
  have hsame : (g.setPc i .published).stages = g.stages := by
    rw [g.stages_setPc, update_eq_self_iff]
    exact (congrArg FlushPc.stage hpc).symm
  rw [htable, heq]
  refine ⟨fun j hj => ?_, ⟨turn, ?_⟩, log_concat h.l0, fun j => ?_, ?_⟩
  · rw [← heq]
    exact (update_of_ne (Nat.ne_of_gt (hi.trans_le hj)) _ _).trans (h.unlaunched j hj)
  · rw [← heq]
    exact hsame ▸ hchain
  · refine (lt_length_log_concat h.published j).trans ?_
    show _ ↔ (update g.taskPc g.l0.length .published j).isPublished = true
    by_cases hj : j = g.l0.length
    · rw [hj, update_self]
      exact iff_of_true (.inl rfl) rfl
    · rw [update_of_ne hj]
      exact or_iff_right hj
  · show g.pendingFlushes.filter (fun q => q.1 ≠ task.epoch) =
      g.inserted.drop (g.l0 ++ [g.l0.length]).length
    rw [h.pending, length_append, length_singleton, ← heq]
    exact hs.erase hinserted

theorem flushInnerStep_publishOk (h : PublishOk g) (hs : SwitchOk g) {task : FlushTask}
    (htask : g.tasks[i]? = some task) {a : FlushInnerAct}
    (hstep : flushInnerStep g i task a = some g') : PublishOk g' := by
  obtain ⟨turn, hchain⟩ := h.chain
  obtain ⟨hi, -, -, hposition⟩ := hs.task htask
  cases a with
  | drain =>
    obtain ⟨hpc, hg⟩ := ite_none_right_eq_some.mp hstep
    obtain rfl := some.inj hg
    exact h.setPc_same hi (by rw [hpc]; rfl) (by rw [hpc]; rfl)
  | write ok =>
    obtain ⟨hpc, hg⟩ := ite_none_right_eq_some.mp hstep
    obtain rfl := some.inj hg
    have hstage : g.stages i = .working := congrArg FlushPc.stage hpc
    have htaken : ¬ (g.stages i).Taken := by
      rw [hstage]
      decide
    cases ok with
    | true =>
      have hnot : ¬ (FlushPc.stage .written).Taken := by decide
      exact h.setPc hi (hchain.settle htaken hnot) (by rw [hpc]; rfl)
    | false =>
      have hnot : ¬ (FlushPc.stage .failing).Taken := by decide
      exact h.setPc hi (hchain.settle htaken hnot) (by rw [hpc]; rfl)
  | acquire =>
    obtain ⟨⟨hpc, hpermit⟩, hg⟩ := ite_none_right_eq_some.mp hstep
    obtain rfl := some.inj hg
    rw [hposition] at hpermit ⊢
    exact h.setPc hi (hchain.acquire hpermit).2 (by rw [hpc]; rfl)
  | publish =>
    obtain ⟨hpc, hg⟩ := ite_none_right_eq_some.mp hstep
    obtain rfl := some.inj hg
    exact h.publish hs htask hpc
  | release =>
    obtain ⟨hpc, hg⟩ := ite_none_right_eq_some.mp hstep
    obtain rfl := some.inj hg
    have hstage : g.stages i = .holding := congrArg FlushPc.stage hpc
    rw [hposition]
    exact h.setPc hi (hchain.release hstage) (by rw [hpc]; rfl)
  | releaseSlot =>
    rw [flushInnerStep] at hstep
    split at hstep
    · next hpc =>
      obtain rfl := some.inj hstep
      exact h.setPc_same hi (by rw [hpc]; rfl) (by rw [hpc]; rfl)
    · obtain ⟨hpc, hg⟩ := ite_none_right_eq_some.mp hstep
      obtain rfl := some.inj hg
      exact h.setPc_same hi (by rw [hpc]; rfl) (by rw [hpc]; rfl)
  | finish =>
    obtain ⟨hpc, hg⟩ := ite_none_right_eq_some.mp hstep
    obtain rfl := some.inj hg
    exact h.setPc_same hi (by rw [hpc]; rfl) (by rw [hpc]; rfl)

theorem flusherAct_publishOk {a : FlusherAct} (h : PublishOk g) (hs : SwitchOk g)
    (hact : flusherAct a g = some g') : PublishOk g' := by
  cases a with
  | make =>
    obtain ⟨-, hg⟩ := ite_none_right_eq_some.mp hact
    cases hg
    exact { h with }
  | draw =>
    cases hact
    exact { h with }
  | task i a =>
    obtain ⟨task, htask, hstep⟩ := bind_eq_some_iff.mp hact
    exact flushInnerStep_publishOk h hs htask hstep

/-- What a caller can do to the publications: add a pending table at the end, or add a
flush. -/
theorem PublishOk.of_switch (h : PublishOk g) (hs : SwitchOk g)
    (hl0 : g'.l0 = g.l0) (hpermits : g'.permits = g.permits) (hpc : g'.taskPc = g.taskPc)
    {new : List (ℕ × ℕ)} (hpending : g'.pendingFlushes = g.pendingFlushes ++ new)
    (hinserted : g'.inserted = g.inserted ++ new) (htasks : g.tasks <+: g'.tasks) :
    PublishOk g' := by
  have hle : g.l0.length ≤ g.inserted.length := by
    have hlen : g.tasks.length ≤ g.inserted.length := by
      have := congrArg length hs.tasks
      rw [length_map, length_take] at this
      omega
    exact h.l0_le.trans hlen
  refine ⟨fun k hk => ?_, ?_, ?_, ?_, ?_⟩
  · rw [hpc]
    exact h.unlaunched k (htasks.length_le.trans hk)
  · have hstages : g'.stages = g.stages := by
      funext k
      exact congrArg (fun pc => (pc k).stage) hpc
    rw [hpermits, hstages]
    exact h.chain
  · rw [hl0]
    exact h.l0
  · rw [hl0, hpc]
    exact h.published
  · rw [hpending, hinserted, hl0, h.pending, drop_append_of_le_length hle]

theorem switchStep_publishOk {t : ι} {expected : ℕ} {pc pc' : SwitchPc} (h : PublishOk g)
    (hs : SwitchOk g) (hat : SwitchAt g expected pc)
    (hstep : switchStep t expected g pc = some (g', pc')) : PublishOk g' := by
  cases pc with
  | idle => cases hstep
  | lock =>
    rw [switchStep] at hstep
    split at hstep
    · cases hstep
      exact h
    · cases hstep
      exact { h with }
  | guard =>
    rw [switchStep] at hstep
    split at hstep
    · cases hstep
      exact { h with }
    · cases hstep
      exact h
  | slot epoch =>
    obtain ⟨-, hg⟩ := ite_none_right_eq_some.mp hstep
    cases hg
    exact { h with }
  | pipelined epoch =>
    obtain ⟨-, hg⟩ := ite_none_right_eq_some.mp hstep
    cases hg
    exact h
  | swap epoch =>
    rw [switchStep] at hstep
    split at hstep
    · cases hstep
    · have hpending : ∀ q ∈ g.pendingFlushes, q.1 < epoch :=
        fun q hq => hat.2.2.1 q (hs.pending q hq)
      have hnew : epoch ∉ g.pendingFlushes.map Prod.fst := by
        intro hmem
        obtain ⟨q, hq, rfl⟩ := mem_map.mp hmem
        exact lt_irrefl _ (hpending q hq)
      rw [insertPending_of_lt hpending, if_neg hnew] at hstep
      cases hstep
      exact h.of_switch hs rfl rfl rfl rfl rfl (prefix_refl _)
  | spawn epoch flushed canWrite =>
    cases hstep
    exact h.of_switch hs rfl rfl rfl (append_nil _).symm (append_nil _).symm
      (prefix_append _ _)
  | _ =>
    cases hstep
    exact { h with }

theorem callerAct_publishOk {t : ι} {a : CallerAct} {l l' : CallerState} (h : PublishOk g)
    (hs : SwitchOk g) (hl : CallerOk t g l) (hact : callerAct t a g l = some (g', l')) :
    PublishOk g' := by
  cases a with
  | load =>
    obtain ⟨-, hg⟩ := ite_none_right_eq_some.mp hact
    cases hg
    exact h
  | call =>
    obtain ⟨-, hg⟩ := ite_none_right_eq_some.mp hact
    cases hg
    exact h
  | run =>
    obtain ⟨⟨g₁, pc₁⟩, hstep, hr⟩ := map_eq_some_iff.mp hact
    cases hr
    exact switchStep_publishOk h hs hl.at_pc hstep

end Publish

theorem exec_flusher_ok [DecidableEq ι] {maxPendingFlushes flushEpoch : ℕ}
    {as : List (Label ι CallerAct FlusherAct)}
    {s : State ι (SwitchState ι) CallerState}
    (hrun : Run.exec (flusher ι).step (newFlusher ι maxPendingFlushes flushEpoch) as = some s) :
    Holds (fun g => SwitchOk g ∧ PublishOk g) CallerOk s := by
  refine exec_holds (C := fun _ _ => True) ?_ ?_
    ⟨⟨SwitchOk.start maxPendingFlushes flushEpoch, PublishOk.start maxPendingFlushes flushEpoch⟩,
      fun t => CallerOk.of_outside rfl nofun⟩ (Run.allSteps_true _ _) hrun
  · intro s t a g l hs _ hact
    obtain ⟨hok, hown, hothers⟩ :=
      callerAct_ok hs.shared.1 (hs.threads t) (fun u _ => hs.threads u) hact
    exact ⟨⟨hok, callerAct_publishOk hs.shared.2 hs.shared.1 (hs.threads t) hact⟩, hown, hothers⟩
  · intro s b g hs _ hact
    obtain ⟨hok, hund⟩ := flusherAct_ok hs.shared.1 hact
    exact ⟨⟨hok, flusherAct_publishOk hs.shared.2 hs.shared.1 hact⟩,
      fun u => (hs.threads u).undisturbed hund⟩

/-! ### The order of the switches -/

/-- The epoch and the table that a call has taken out and not yet handed to a flush. -/
def SwitchPc.launching : SwitchPc → Option (ℕ × ℕ)
  | bump e flushed | pipeline e flushed | chain e flushed | spawn e flushed _ => some (e, flushed)
  | _ => none

/-- Every full table is switched out once and in order.  `inserted` and `epochs`: the
tables that are no longer current went into `_pending_flushes` once each, in the order in
which they were current, under growing epochs.  `flushes`: each of them has one flush,
but for one that the caller with the mutex is about to hand over.  `positions`: the
flushes hold the positions of the chain in this order.  `kept`: every table is published
or pending, and none is both. -/
structure SwitchedInOrder (s : State ι (SwitchState ι) CallerState) : Prop where
  current : s.shared.currents.getLast? = some s.shared.table
  nodup : s.shared.currents.Nodup
  frozen : ∀ i ∈ s.shared.currents, i ≠ s.shared.table → s.shared.frozen i = true
  inserted : s.shared.inserted.map Prod.snd = s.shared.currents.dropLast
  epochs : (s.shared.inserted.map Prod.fst).Pairwise (· < ·)
  flushes : s.shared.tasks.map FlushTask.data = s.shared.inserted ∨
    ∃ t q, s.shared.flushMutex = some t ∧ (s.threads t).pc.launching = some q ∧
      s.shared.tasks.map FlushTask.data ++ [q] = s.shared.inserted
  positions : s.shared.tasks.map FlushTask.canWrite = range s.shared.tasks.length
  kept : s.shared.l0 ++ s.shared.pendingFlushes.map Prod.snd = s.shared.currents.dropLast

section Order

variable {g : SwitchState ι}

theorem SwitchOk.tasks_eq (h : SwitchOk g) (hs : Settled g) :
    g.tasks.map FlushTask.data = g.inserted := by
  rw [h.tasks, hs.tasks, take_length]

theorem SwitchOk.tasks_concat (h : SwitchOk g) {epoch flushed : ℕ}
    (hl : Launching g epoch flushed) :
    g.tasks.map FlushTask.data ++ [(epoch, flushed)] = g.inserted := by
  have hone := take_add_one (l := g.inserted) (i := g.tasks.length)
  rw [hl.last, hl.tasks, take_length] at hone
  rw [h.tasks]
  exact hone.symm

/-- Inside the section every table that was taken out has its flush, or the call has it. -/
theorem SwitchOk.flushes (h : SwitchOk g) {expected : ℕ} {pc : SwitchPc}
    (hin : pc.inside = true) (hat : SwitchAt g expected pc) :
    g.tasks.map FlushTask.data = g.inserted ∨
      ∃ q, pc.launching = some q ∧ g.tasks.map FlushTask.data ++ [q] = g.inserted := by
  cases pc with
  | idle | lock => cases hin
  | guard | unlock => exact .inl (h.tasks_eq hat)
  | epoch | freeze epoch | slot epoch | pipelined epoch | swap epoch =>
    exact .inl (h.tasks_eq hat.1)
  | bump epoch flushed | pipeline epoch flushed | chain epoch flushed | spawn epoch flushed c =>
    exact .inr ⟨_, rfl, h.tasks_concat hat.1⟩

end Order

/-- **Every full table is switched out exactly once and in order**, whatever callers do
with the tables they saw, and however the flushes end. -/
theorem switched_in_order [DecidableEq ι] (maxPendingFlushes flushEpoch : ℕ)
    (as : List (Label ι CallerAct FlusherAct))
    (s : State ι (SwitchState ι) CallerState)
    (hrun : Run.exec (flusher ι).step (newFlusher ι maxPendingFlushes flushEpoch) as = some s) :
    SwitchedInOrder s := by
  obtain ⟨⟨hs, hp⟩, hcallers⟩ := exec_flusher_ok hrun
  have hbefore : s.shared.currents.dropLast = range s.shared.table := by
    rw [hs.currents, range_succ, dropLast_concat]
  refine ⟨?_, ?_, fun i hi hne => hs.frozen i ?_, hs.inserted.trans hbefore.symm, hs.epochs, ?_,
    hs.positions, ?_⟩
  · rw [hs.currents, range_succ, getLast?_concat]
  · rw [hs.currents]
    exact nodup_range
  · rw [hs.currents, mem_range] at hi
    omega
  · cases hm : s.shared.flushMutex with
    | none => exact .inl (hs.tasks_eq (hs.settled hm))
    | some t =>
        rcases hs.flushes ((hcallers t).mutex.mpr hm) (hcallers t).at_pc with h | ⟨q, hq, h⟩
        · exact .inl h
        · exact .inr ⟨t, q, rfl, hq, h⟩
  · -- the published tables are the first ones, the pending ones the rest
    have hle : s.shared.l0.length ≤ s.shared.table := by
      have hlen := congrArg length hs.inserted
      have htasks := congrArg length hs.tasks
      have := hp.l0_le
      simp only [length_map, length_range, length_take] at hlen htasks
      omega
    rw [hbefore, hp.pending, map_drop, hs.inserted]
    conv_lhs => rw [hp.l0]
    have htake : range s.shared.l0.length =
        (range s.shared.table).take s.shared.l0.length := by
      rw [take_range, min_eq_left hle]
    rw [htake, length_take, length_range, min_eq_left hle, take_append_drop]

/-- Two callers see the first table as full; the second is refused while the first waits,
and a later switch takes the second table out. -/
def switchRun : List (Label (Fin 2) CallerAct FlusherAct) :=
  [ .thread firstThread .load, .thread secondThread .load, .thread firstThread .call,
    .thread secondThread .call, .thread firstThread .run, .thread secondThread .run ] ++
  replicate 11 (.thread firstThread .run) ++
  [ .background .make, .thread secondThread .call, .thread secondThread .run,
    .thread secondThread .run, .thread secondThread .load, .background .draw,
    .thread secondThread .call ] ++ replicate 12 (.thread secondThread .run)

theorem switched_in_order_twice : ∃ s,
    Run.exec (flusher (Fin 2)).step (newFlusher (Fin 2) 4 7) switchRun = some s ∧
      s.shared.currents = [0, 1, 2] ∧ s.shared.inserted = [(7, 0), (9, 1)] ∧
      SwitchedInOrder s := by
  have hview : (Run.exec (flusher (Fin 2)).step (newFlusher (Fin 2) 4 7) switchRun).map
      (fun s => (s.shared.currents, s.shared.inserted)) = some ([0, 1, 2], [(7, 0), (9, 1)]) := by
    decide +kernel
  obtain ⟨s, hrun, hs⟩ := map_eq_some_iff.mp hview
  obtain ⟨hcurrents, hinserted⟩ := Prod.mk.inj hs
  exact ⟨s, hrun, hcurrents, hinserted, switched_in_order 4 7 switchRun s hrun⟩

/-! ### The permit of the next flush -/

/-- **The next permit is there if and only if no earlier flush failed**: in every state
that is reached, when all flushes before `k` have returned and flush `k` (or the one to
come) has not taken its permit.  The tables in L0 are in order in any case. -/
theorem flush_permit_available_iff [DecidableEq ι] (maxPendingFlushes flushEpoch : ℕ)
    (as : List (Label ι CallerAct FlusherAct))
    (s : State ι (SwitchState ι) CallerState)
    (hrun : Run.exec (flusher ι).step (newFlusher ι maxPendingFlushes flushEpoch) as = some s) :
    (∀ k ≤ s.shared.tasks.length, (∀ j < k, (s.shared.taskPc j).isOver = true) →
        ¬ (s.shared.taskPc k).stage.Taken →
        (0 < s.shared.permits k ↔ ∀ j < k, s.shared.taskPc j ≠ .failed)) ∧
      s.shared.l0 <+: s.shared.currents := by
  obtain ⟨⟨hs, hp⟩, -⟩ := exec_flusher_ok hrun
  obtain ⟨turn, hchain⟩ := hp.chain
  refine ⟨fun k _ hreturned hk => ?_, ?_⟩
  · have hover : ∀ j < k, (s.shared.stages j).Over ∧
        (s.shared.stages j = .failed ↔ s.shared.taskPc j = .failed) := by
      intro j hj
      have hj' := hreturned j hj
      rw [SwitchState.stages]
      cases hpc : s.shared.taskPc j with
      | finished => exact ⟨.inl rfl, nofun, nofun⟩
      | failed => exact ⟨.inr rfl, iff_of_true rfl rfl⟩
      | _ =>
          rw [hpc] at hj'
          cases hj'
    rw [hchain.available_iff (fun j hj => (hover j hj).1) hk]
    exact forall₂_congr fun j hj => not_congr (hover j hj).2
  · rw [hp.l0, hs.currents]
    have hle : s.shared.l0.length ≤ s.shared.table + 1 := by
      have hlen := congrArg length hs.inserted
      have htasks := congrArg length hs.tasks
      have := hp.l0_le
      simp only [length_map, length_range, length_take] at hlen htasks
      omega
    rw [prefix_iff_eq_take, length_range, take_range, min_eq_left hle]

/-- A caller switches the first two tables out. -/
def twoSwitches : List (Label (Fin 1) CallerAct FlusherAct) :=
  [ .thread 0 .load, .thread 0 .call ] ++ replicate 12 (.thread 0 .run) ++
  [ .background .make, .thread 0 .load, .thread 0 .call ] ++ replicate 12 (.thread 0 .run)

/-- Flush `i` up to where it has written its SSTs or has failed to. -/
def flushWrites (i : ℕ) (ok : Bool) : List (Label (Fin 1) CallerAct FlusherAct) :=
  [ .background (.task i .drain), .background (.task i (.write ok)) ]

/-- What is looked at after a run: the number of flushes, the first two, the permit of the
second and L0. -/
def flushView (s : State (Fin 1) (SwitchState (Fin 1)) CallerState) :
    ℕ × FlushPc × FlushPc × ℕ × List ℕ :=
  (s.shared.tasks.length, s.shared.taskPc 0, s.shared.taskPc 1, s.shared.permits 1, s.shared.l0)

/-- The second flush has written its SSTs first; then the first flush runs to its end. -/
def flushRun : List (Label (Fin 1) CallerAct FlusherAct) :=
  twoSwitches ++ flushWrites 1 true ++ flushWrites 0 true ++
    [.acquire, .publish, .release, .releaseSlot, .finish].map fun a => .background (.task 0 a)

theorem flush_permit_available_second : ∃ s,
    Run.exec (flusher (Fin 1)).step (newFlusher (Fin 1) 4 0) flushRun = some s ∧
      0 < s.shared.permits 1 ∧ s.shared.l0 = [0] := by
  have hview : (Run.exec (flusher (Fin 1)).step (newFlusher (Fin 1) 4 0) flushRun).map flushView =
      some (2, .finished, .written, 1, [0]) := by decide +kernel
  obtain ⟨s, hrun, hs⟩ := map_eq_some_iff.mp hview
  simp only [flushView, Prod.mk.injEq] at hs
  obtain ⟨hlen, hfirst, hsecond, -, hl0⟩ := hs
  have hprior : ∀ j < 1, s.shared.taskPc j = .finished := fun j hj => by
    obtain rfl : j = 0 := by omega
    exact hfirst
  refine ⟨s, hrun, ((flush_permit_available_iff 4 0 _ s hrun).1 1 (by omega) ?_ ?_).mpr ?_, hl0⟩
  · intro j hj
    rw [hprior j hj]
    rfl
  · rw [hsecond]
    decide
  · intro j hj hfail
    rw [hprior j hj] at hfail
    cases hfail

/-- The first flush fails; the second has written its SSTs and never gets its permit. -/
theorem flush_permit_lost_on_failure : ∃ s,
    Run.exec (flusher (Fin 1)).step (newFlusher (Fin 1) 4 0)
        (twoSwitches ++ flushWrites 0 false ++ [.background (.task 0 .releaseSlot)] ++
          flushWrites 1 true) = some s ∧
      (∀ j < 1, (s.shared.taskPc j).isOver = true) ∧ s.shared.taskPc 1 = .written ∧
      s.shared.permits 1 = 0 := by
  have hview : (Run.exec (flusher (Fin 1)).step (newFlusher (Fin 1) 4 0)
      (twoSwitches ++ flushWrites 0 false ++ [.background (.task 0 .releaseSlot)] ++
        flushWrites 1 true)).map flushView = some (2, .failed, .written, 0, []) := by
    decide +kernel
  obtain ⟨s, hrun, hs⟩ := map_eq_some_iff.mp hview
  simp only [flushView, Prod.mk.injEq] at hs
  obtain ⟨-, hfirst, hsecond, hpermit, -⟩ := hs
  refine ⟨s, hrun, fun j hj => ?_, hsecond, hpermit⟩
  obtain rfl : j = 0 := by omega
  rw [hfirst]
  rfl

end HedgeDB
