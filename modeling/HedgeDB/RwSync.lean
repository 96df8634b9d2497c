/-
HedgeDB/RwSync.lean

Admission of the writers of a table (`src/async/rw_sync.h`).

A writer stores `1` to the counter of its slot, then reads `_frozen`; it is admitted,
or stores `0` and gives up.  An admitted writer stores `0` when it is done.  The
flusher freezes the table and then reads the counters one after the other.  Each of
these accesses is an atomic action, in one order all threads agree on, and every
thread may use any slot.

The counter of a slot is a flag, although the comment of the class speaks of
reference counting: a store of `0` takes back the announcements of all writers that
share the slot.  `no_writer_once_drained` is what the drain loop of `_flush_inner`
relies on; it holds in every run in which no such store hides a writer that counts.
-/
import HedgeDB.Interleave

namespace HedgeDB

open Interleave Function

variable {ι : Type*}

/-! ### The object -/

/-- `_frozen` and `_counters`.  `drained` records that a call of `any_active_writer` that
began after `freeze_writes` has returned `false`. -/
structure RwSyncState where
  frozen : Bool := false
  counters : ℕ → ℕ := fun _ => 0
  drained : Bool := false

/-- Where a thread is: in `acquire_writer`, with an `acquired_writer`, or in
`any_active_writer`, which has read the counters before `slot`; `late` says that it
began after `freeze_writes`. -/
inductive RwSyncPc
  | idle
  | announced (slot : ℕ)
  | refused (slot : ℕ)
  | holding (slot : ℕ)
  | scanning (late : Bool) (slot : ℕ)
  deriving DecidableEq, Repr

/-- The accesses: `announce`, `checkFrozen` and `backOff` are those of `acquire_writer`,
`anyActiveWriter` and `load` those of a scan. -/
inductive RwSyncAct
  | announce (slot : ℕ)
  | checkFrozen
  | backOff
  | release
  | freezeWrites
  | anyActiveWriter
  | load
  deriving DecidableEq, Repr

/-- A store to the counter of a slot. -/
def RwSyncState.store (g : RwSyncState) (slot c : ℕ) : RwSyncState :=
  { g with counters := update g.counters slot c }

/-- One access by a thread. -/
def rwSyncAct (threadCount : ℕ) (_t : ι) (a : RwSyncAct) (g : RwSyncState) (l : RwSyncPc) :
    Option (RwSyncState × RwSyncPc) :=
  match a, l with
  | .announce slot, .idle =>
      if slot < threadCount then some (g.store slot 1, .announced slot) else none
  | .checkFrozen, .announced slot => some (g, if g.frozen then .refused slot else .holding slot)
  | .backOff, .refused slot => some (g.store slot 0, .idle)
  | .release, .holding slot => some (g.store slot 0, .idle)
  -- `_flush` freezes the table its caller still holds
  | .freezeWrites, l => some ({ g with frozen := true }, l)
  | .anyActiveWriter, .idle => some (g, .scanning g.frozen 0)
  | .load, .scanning late slot =>
      if slot = threadCount then some ({ g with drained := g.drained || late }, .idle)
      else if 0 < g.counters slot then some (g, .idle)
      else some (g, .scanning late (slot + 1))
  | _, _ => none

/-- An object with `threadCount` counters. -/
def rwSync (ι : Type*) (threadCount : ℕ) :
    System ι RwSyncState RwSyncPc RwSyncAct Empty where
  act := rwSyncAct threadCount
  background := fun b => b.elim

def newRwSync (ι : Type*) : State ι RwSyncState RwSyncPc := ⟨{}, fun _ => .idle⟩

/-! ### The condition -/

/-- The slot of a writer that counts: it is admitted, or will be if it reads `_frozen`
now. -/
def RwSyncPc.live (frozen : Bool) : RwSyncPc → Option ℕ
  | holding slot => some slot
  | announced slot => if frozen then none else some slot
  | _ => none

/-- The slot to which a thread stores `0` by action `a`. -/
def RwSyncPc.clears : RwSyncAct → RwSyncPc → Option ℕ
  | .backOff, refused slot => some slot
  | .release, holding slot => some slot
  | _, _ => none

/-- A store of `0` hides no other writer that counts. -/
def HidesNone (s : State ι RwSyncState RwSyncPc) :
    Label ι RwSyncAct Empty → Prop
  | .thread t a => ∀ slot ∈ (s.threads t).clears a,
      ∀ u, u ≠ t → (s.threads u).live s.shared.frozen ≠ some slot
  | .background b => b.elim

instance [Fintype ι] [DecidableEq ι] (s : State ι RwSyncState RwSyncPc) :
    ∀ a, Decidable (HidesNone s a)
  | .thread t a => inferInstanceAs (Decidable (∀ slot ∈ (s.threads t).clears a,
      ∀ u, u ≠ t → (s.threads u).live s.shared.frozen ≠ some slot))
  | .background b => b.elim

/-! ### What one access does -/

section Access

variable {threadCount : ℕ} {t : ι} {a : RwSyncAct} {g g' : RwSyncState} {l l' : RwSyncPc} {slot : ℕ}

theorem rwSyncAct_cases (h : rwSyncAct threadCount t a g l = some (g', l')) :
    (∃ i, l = .idle ∧ i < threadCount ∧ a = .announce i ∧ g' = g.store i 1 ∧ l' = .announced i) ∨
    (∃ i, l = .announced i ∧ a = .checkFrozen ∧ g' = g ∧
      l' = if g.frozen then .refused i else .holding i) ∨
    (∃ i, l.clears a = some i ∧ g' = g.store i 0 ∧ l' = .idle) ∨
    (a = .freezeWrites ∧ g' = { g with frozen := true } ∧ l' = l) ∨
    (l = .idle ∧ a = .anyActiveWriter ∧ g' = g ∧ l' = .scanning g.frozen 0) ∨
    (∃ late, l = .scanning late threadCount ∧ a = .load ∧
      g' = { g with drained := g.drained || late } ∧ l' = .idle) ∨
    (∃ late i, l = .scanning late i ∧ i ≠ threadCount ∧ a = .load ∧ g' = g ∧
      (l' = .idle ∨ g.counters i = 0 ∧ l' = .scanning late (i + 1))) := by
  cases a with
  | announce i =>
    cases l with
    | idle =>
      obtain ⟨hi, hs⟩ := Option.ite_none_right_eq_some.mp h
      cases hs
      exact .inl ⟨i, rfl, hi, rfl, rfl, rfl⟩
    | _ => cases h
  | checkFrozen =>
    cases l with
    | announced i =>
      cases h
      exact .inr (.inl ⟨i, rfl, rfl, rfl, rfl⟩)
    | _ => cases h
  | backOff =>
    cases l with
    | refused i =>
      cases h
      exact .inr (.inr (.inl ⟨i, rfl, rfl, rfl⟩))
    | _ => cases h
  | release =>
    cases l with
    | holding i =>
      cases h
      exact .inr (.inr (.inl ⟨i, rfl, rfl, rfl⟩))
    | _ => cases h
  | freezeWrites =>
    cases h
    exact .inr (.inr (.inr (.inl ⟨rfl, rfl, rfl⟩)))
  | anyActiveWriter =>
    cases l with
    | idle =>
      cases h
      exact .inr (.inr (.inr (.inr (.inl ⟨rfl, rfl, rfl, rfl⟩))))
    | _ => cases h
  | load =>
    cases l with
    | scanning late i =>
      rw [rwSyncAct] at h
      split at h
      · next hi =>
        cases h
        exact .inr (.inr (.inr (.inr (.inr (.inl ⟨late, by rw [hi], rfl, rfl, rfl⟩)))))
      · next hi =>
        refine .inr (.inr (.inr (.inr (.inr (.inr ⟨late, i, rfl, hi, rfl, ?_⟩)))))
        split at h
        · cases h
          exact ⟨rfl, .inl rfl⟩
        · next hzero =>
          cases h
          exact ⟨rfl, .inr ⟨Nat.eq_zero_of_not_pos hzero, rfl⟩⟩
    | _ => cases h

theorem rwSyncAct_frozen (h : rwSyncAct threadCount t a g l = some (g', l'))
    (hf : g.frozen = true) : g'.frozen = true := by
  obtain ⟨i, -, -, -, rfl, -⟩ | ⟨i, -, -, rfl, -⟩ | ⟨i, -, rfl, -⟩ | ⟨-, rfl, -⟩ | ⟨-, -, rfl, -⟩ |
    ⟨late, -, -, rfl, -⟩ | ⟨late, i, -, -, -, rfl, -⟩ := rwSyncAct_cases h
  case inr.inr.inr.inl => rfl
  all_goals exact hf

theorem rwSyncAct_holding (h : rwSyncAct threadCount t a g l = some (g', l'))
    (hf : g.frozen = true) (hl' : l' = .holding slot) : l = .holding slot := by
  subst hl'
  obtain ⟨i, -, -, -, -, hl'⟩ | ⟨i, -, -, -, hl'⟩ | ⟨i, -, -, hl'⟩ | ⟨-, -, hl'⟩ | ⟨-, -, -, hl'⟩ |
    ⟨late, -, -, -, hl'⟩ | ⟨late, i, -, -, -, -, hl' | ⟨-, hl'⟩⟩ := rwSyncAct_cases h
  case inr.inr.inr.inl => exact hl'.symm
  case inr.inl =>
    rw [hf] at hl'
    cases hl'
  all_goals cases hl'

theorem rwSyncAct_counters (h : rwSyncAct threadCount t a g l = some (g', l'))
    (hone : g.counters slot = 1) (hclears : l.clears a ≠ some slot) : g'.counters slot = 1 := by
  obtain ⟨i, -, -, -, rfl, -⟩ | ⟨i, -, -, rfl, -⟩ | ⟨i, hi, rfl, -⟩ | ⟨-, rfl, -⟩ | ⟨-, -, rfl, -⟩ |
    ⟨late, -, -, rfl, -⟩ | ⟨late, i, -, -, -, rfl, -⟩ := rwSyncAct_cases h
  case inl =>
    show update g.counters i 1 slot = 1
    by_cases hs : slot = i
    · rw [hs, update_self]
    · rw [update_of_ne hs, hone]
  case inr.inr.inl =>
    have hs : slot ≠ i := fun hs => hclears (hs ▸ hi)
    exact (update_of_ne hs _ _).trans hone
  all_goals exact hone

/-- A writer that counts after its access counted before, or has just announced itself. -/
theorem rwSyncAct_live (h : rwSyncAct threadCount t a g l = some (g', l'))
    (hlive : l'.live g'.frozen = some slot) :
    slot < threadCount ∧ g'.counters slot = 1 ∨
      l.live g.frozen = some slot ∧ g'.counters = g.counters := by
  obtain ⟨i, -, hi, -, rfl, rfl⟩ | ⟨i, rfl, -, rfl, rfl⟩ | ⟨i, -, -, rfl⟩ | ⟨-, rfl, rfl⟩ |
    ⟨-, -, rfl, rfl⟩ | ⟨late, -, -, rfl, rfl⟩ | ⟨late, i, -, -, -, rfl, rfl | ⟨-, rfl⟩⟩ :=
    rwSyncAct_cases h
  case inl =>
    obtain ⟨-, hs⟩ := Option.ite_none_left_eq_some.mp hlive
    obtain rfl := Option.some_inj.mp hs
    exact .inl ⟨hi, update_self _ _ _⟩
  case inr.inl =>
    refine .inr ⟨?_, rfl⟩
    cases hf : g'.frozen with
    | true =>
      rw [hf] at hlive
      cases hlive
    | false =>
      rw [hf] at hlive
      exact hlive
  case inr.inr.inr.inl =>
    refine .inr ⟨?_, rfl⟩
    cases l' with
    | holding i => exact hlive
    | _ => cases hlive
  all_goals cases hlive

theorem live_of_frozen {f f' : Bool} (hf : f = true → f' = true) (h : l.live f' = some slot) :
    l.live f = some slot := by
  cases l with
  | holding i => exact h
  | announced i =>
    obtain ⟨hf', hs⟩ := Option.ite_none_left_eq_some.mp h
    exact Option.ite_none_left_eq_some.mpr ⟨mt hf hf', hs⟩
  | _ => cases h

end Access

/-! ### Runs -/

/-- What holds between any two accesses when no writer that counts is hidden: its
counter is set, a late scan has not passed it, and there is none once the object is
drained. -/
structure RwSyncOk (threadCount : ℕ) (s : State ι RwSyncState RwSyncPc) : Prop where
  visible : ∀ t slot, (s.threads t).live s.shared.frozen = some slot →
    slot < threadCount ∧ s.shared.counters slot = 1
  ahead : ∀ u i, s.threads u = .scanning true i → s.shared.frozen = true ∧ i ≤ threadCount ∧
    ∀ t slot, s.threads t = .holding slot → i ≤ slot
  drained : s.shared.drained = true → s.shared.frozen = true ∧
    ∀ t slot, s.threads t ≠ .holding slot

section Runs

theorem RwSyncOk.start {threadCount : ℕ} : RwSyncOk threadCount (newRwSync ι) :=
  ⟨nofun, nofun, nofun⟩

variable [DecidableEq ι] {threadCount : ℕ} {s s' : State ι RwSyncState RwSyncPc}
  {a : Label ι RwSyncAct Empty}

theorem rwSync_holding (hstep : (rwSync ι threadCount).step s a = some s')
    (hf : s.shared.frozen = true) {t : ι} {slot : ℕ} (ht : s'.threads t = .holding slot) :
    s.threads t = .holding slot := by
  cases a with
  | background b => exact b.elim
  | thread u a =>
    obtain ⟨g, l, hact, rfl⟩ := step_thread hstep
    change update s.threads u l t = _ at ht
    by_cases htu : t = u
    · subst htu
      rw [update_self] at ht
      exact rwSyncAct_holding (t := t) hact hf ht
    · rwa [update_of_ne htu] at ht

theorem RwSyncOk.step_visible (h : RwSyncOk threadCount s) {t u : ι} {a : RwSyncAct}
    {g : RwSyncState} {l : RwSyncPc}
    (hc : HidesNone s (.thread t a))
    (hact : rwSyncAct threadCount t a s.shared (s.threads t) = some (g, l)) {slot : ℕ}
    (hlive : (update s.threads t l u).live g.frozen = some slot) :
    slot < threadCount ∧ g.counters slot = 1 := by
  by_cases hu : u = t
  · subst hu
    rw [update_self] at hlive
    rcases rwSyncAct_live hact hlive with hnew | ⟨hold, hsame⟩
    · exact hnew
    · rw [hsame]
      exact h.visible u slot hold
  · rw [update_of_ne hu] at hlive
    have hold := live_of_frozen (rwSyncAct_frozen hact) hlive
    obtain ⟨hlt, hone⟩ := h.visible u slot hold
    exact ⟨hlt, rwSyncAct_counters hact hone fun hclears => hc slot hclears u hu hold⟩

theorem RwSyncOk.step (h : RwSyncOk threadCount s) (hc : HidesNone s a)
    (hstep : (rwSync ι threadCount).step s a = some s') : RwSyncOk threadCount s' := by
  cases a with
  | background b => exact b.elim
  | thread t a =>
    have hstep' := hstep
    obtain ⟨g, l, hact, rfl⟩ := step_thread hstep
    have hholding : ∀ {t' slot}, s.shared.frozen = true →
        update s.threads t l t' = .holding slot → s.threads t' = .holding slot :=
      fun hf ht' => rwSync_holding hstep' hf ht'
    have hact' : rwSyncAct threadCount t a s.shared (s.threads t) = some (g, l) := hact
    refine ⟨fun u slot hlive => h.step_visible hc hact' hlive, fun u i hu => ?_, fun hd => ?_⟩
    · change update s.threads t l u = _ at hu
      have hother : s.threads u = .scanning true i → g.frozen = true ∧ i ≤ threadCount ∧
          ∀ t' slot, update s.threads t l t' = .holding slot → i ≤ slot := by
        intro hu'
        obtain ⟨hf, hle, hahead⟩ := h.ahead u i hu'
        exact ⟨rwSyncAct_frozen hact' hf, hle, fun t' slot ht' => hahead t' slot (hholding hf ht')⟩
      by_cases hut : u = t
      · subst hut
        rw [update_self] at hu
        subst hu
        obtain ⟨_, -, -, -, -, hl⟩ | ⟨_, -, -, -, hl⟩ | ⟨_, -, -, hl⟩ | ⟨-, -, hl⟩ |
          ⟨-, -, rfl, hl⟩ | ⟨_, -, -, -, hl⟩ |
          ⟨late, j, hpc, hj, -, rfl, hl | ⟨hzero, hl⟩⟩ := rwSyncAct_cases hact'
        case inr.inr.inr.inl => exact hother hl.symm
        case inr.inr.inr.inr.inl =>
          -- the scan begins
          obtain ⟨hf, rfl⟩ := RwSyncPc.scanning.inj hl
          exact ⟨hf.symm, Nat.zero_le _, fun _ _ _ => Nat.zero_le _⟩
        case inr.inr.inr.inr.inr.inr.inr =>
          -- the scan passes slot `j`, whose counter is not set
          obtain ⟨rfl, rfl⟩ := RwSyncPc.scanning.inj hl
          obtain ⟨hf, hle, hahead⟩ := h.ahead u j hpc
          refine ⟨hf, by omega, fun t' slot ht' => ?_⟩
          have hold := hholding hf ht'
          have hle' := hahead t' slot hold
          have hone := (h.visible t' slot (congrArg (RwSyncPc.live _) hold)).2
          have hne : slot ≠ j := by
            rintro rfl
            rw [hzero] at hone
            cases hone
          omega
        case inr.inl =>
          split at hl <;> cases hl
        all_goals cases hl
      · rw [update_of_ne hut] at hu
        exact hother hu
    · change g.drained = true at hd
      have hother : s.shared.drained = true → g.frozen = true ∧
          ∀ t' slot, update s.threads t l t' ≠ .holding slot := by
        intro hd'
        obtain ⟨hf, hnone⟩ := h.drained hd'
        exact ⟨rwSyncAct_frozen hact' hf, fun t' slot ht' => hnone t' slot (hholding hf ht')⟩
      obtain ⟨_, -, -, -, rfl, -⟩ | ⟨_, -, -, rfl, -⟩ | ⟨_, -, rfl, -⟩ | ⟨-, rfl, -⟩ |
        ⟨-, -, rfl, -⟩ | ⟨late, hpc, -, rfl, rfl⟩ | ⟨_, _, -, -, -, rfl, -⟩ :=
        rwSyncAct_cases hact'
      case inr.inr.inr.inr.inr.inl =>
        -- a scan has read all counters
        rcases Bool.or_eq_true_iff.mp hd with hd' | rfl
        · exact hother hd'
        · obtain ⟨hf, -, hahead⟩ := h.ahead t threadCount hpc
          refine ⟨hf, fun t' slot ht' => ?_⟩
          have hold := hholding hf ht'
          have hlt := (h.visible t' slot (congrArg (RwSyncPc.live _) hold)).1
          exact absurd (hahead t' slot hold) (Nat.not_le_of_lt hlt)
      all_goals exact hother hd

/-- **Once the object is drained, nobody holds it**: in every run in which no store of
`0` hides another writer that counts, after a call of `any_active_writer` that began
after `freeze_writes` has returned `false`, there is no `acquired_writer` and never will
be. -/
theorem no_writer_once_drained (threadCount : ℕ)
    (as : List (Label ι RwSyncAct Empty))
    (hall : Run.AllSteps (rwSync ι threadCount).step HidesNone (newRwSync ι) as)
    (s : State ι RwSyncState RwSyncPc)
    (hrun : Run.exec (rwSync ι threadCount).step (newRwSync ι) as = some s)
    (hdrained : s.shared.drained = true) (t : ι) (slot : ℕ) : s.threads t ≠ .holding slot := by
  have hok : RwSyncOk threadCount s := Run.exec_invariant
    (fun _ _ _ h hc hstep => h.step hc hstep) RwSyncOk.start hall hrun
  exact (hok.drained hdrained).2 t slot

end Runs

/-- The threads of the example runs. -/
def threadA : Fin 3 := 0

def threadB : Fin 3 := 1

def threadC : Fin 3 := 2

/-- The threads of the example runs of two threads. -/
def firstThread : Fin 2 := 0

def secondThread : Fin 2 := 1

/-- Two writers use the one slot one after the other; then a third thread drains the
object. -/
def drainRun : List (Label (Fin 3) RwSyncAct Empty) :=
  [ .thread threadA (.announce 0), .thread threadA .checkFrozen, .thread threadA .release,
    .thread threadB (.announce 0), .thread threadB .checkFrozen, .thread threadC .freezeWrites,
    .thread threadA (.announce 0), .thread threadA .checkFrozen, .thread threadB .release,
    .thread threadA .backOff, .thread threadC .anyActiveWriter, .thread threadC .load,
    .thread threadC .load ]

theorem no_writer_once_drained_run : ∃ s,
    Run.exec (rwSync (Fin 3) 1).step (newRwSync (Fin 3)) drainRun = some s ∧
      s.shared.drained = true ∧ s.threads 1 ≠ .holding 0 := by
  have hall : Run.AllSteps (rwSync (Fin 3) 1).step HidesNone (newRwSync (Fin 3)) drainRun := by
    decide +kernel
  obtain ⟨s, hrun, hdrained⟩ : ∃ s,
      Run.exec (rwSync (Fin 3) 1).step (newRwSync (Fin 3)) drainRun = some s ∧
        s.shared.drained = true := ⟨_, rfl, rfl⟩
  exact ⟨s, hrun, hdrained, no_writer_once_drained 1 drainRun hall s hrun hdrained 1 0⟩

/-- Two writers share a slot; the first to leave takes back the announcement of the other,
which still holds the object when it counts as drained. -/
theorem writer_hidden_by_release : ∃ s,
    Run.exec (rwSync (Fin 3) 1).step (newRwSync (Fin 3))
        [ .thread 0 (.announce 0), .thread 0 .checkFrozen, .thread 1 (.announce 0),
          .thread 1 .checkFrozen, .thread 1 .release, .thread 2 .freezeWrites,
          .thread 2 .anyActiveWriter, .thread 2 .load, .thread 2 .load ] = some s ∧
      s.shared.drained = true ∧ s.threads 0 = .holding 0 :=
  ⟨_, rfl, rfl, rfl⟩

end HedgeDB
