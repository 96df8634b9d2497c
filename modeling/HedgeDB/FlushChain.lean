/-
HedgeDB/FlushChain.lean

Switching tables and publishing them (`memtable::_flush`, `_flush_inner` and
`_make_memtable` in `src/db/memtable.cc`).

Callers of `put_async` keep a reference to the table they last loaded and call
`_flush` with it.  The flush mutex admits one of them; it checks that the table is
still current, draws an epoch, freezes the table, waits for a flush slot and for the
pipelined table, swaps the tables, and takes the next position in the chain of
permissions.  A flush writes its table, waits for its permit, publishes, and hands
the permit on; a flush that fails gives back its slot and returns.

Tables and semaphores are numbered in the order in which they are created.  The lists
`currents`, `inserted` and `l0` record the tables that were current, the insertions into
`_pending_flushes`, and the publications.

`SwitchOk` and `CallerOk` say what every action keeps; `FlushOrder` draws the conclusions
about whole runs.
-/
import HedgeDB.Interleave
import HedgeDB.PermitChain

namespace HedgeDB

open PermitChain List Option

variable {ι : Type*}

/-! ### The state -/

/-- Where a call of `_flush` is: `epoch` is the one it has drawn, `flushed` the table it
has taken out. -/
inductive SwitchPc
  | idle
  | lock
  | guard
  | epoch
  | freeze (epoch : ℕ)
  | slot (epoch : ℕ)
  | pipelined (epoch : ℕ)
  | swap (epoch : ℕ)
  | bump (epoch flushed : ℕ)
  | pipeline (epoch flushed : ℕ)
  | chain (epoch flushed : ℕ)
  | spawn (epoch flushed canWrite : ℕ)
  | unlock
  deriving DecidableEq, Repr

/-- A caller: the table of its thread-local reference, and its call. -/
structure CallerState where
  ref : Option ℕ := none
  pc : SwitchPc := .idle
  deriving DecidableEq, Repr

/-- What `_flush_inner` is called with; `next_can_write` is the semaphore after
`canWrite`. -/
structure FlushTask where
  epoch : ℕ
  table : ℕ
  canWrite : ℕ
  deriving DecidableEq, Repr

/-- Where `_flush_inner` is. -/
inductive FlushPc
  | draining
  | writing
  | written
  | permitted
  | published
  | released
  | slotReleased
  | finished
  | failing
  | failed
  deriving DecidableEq, Repr

/-- `_pending_flushes.insert`: the map is ordered by epoch, and an epoch that is there
already keeps its table. -/
def insertPending (epoch table : ℕ) : List (ℕ × ℕ) → List (ℕ × ℕ)
  | [] => [(epoch, table)]
  | q :: rest =>
      if epoch < q.1 then (epoch, table) :: q :: rest
      else if epoch = q.1 then q :: rest
      else q :: insertPending epoch table rest

/-- What the callers and the flushes share.  The flush mutex is a flag in the source;
the model keeps the caller that set it.  `makers` counts the spawned tasks that have
not stored their table into `_pipelined_table` yet. -/
structure SwitchState (ι : Type*) where
  table : ℕ := 0
  pipelined : Option ℕ := some 1
  created : ℕ := 2
  makers : ℕ := 0
  frozen : ℕ → Bool := fun _ => false
  flushMutex : Option ι := none
  flushEpoch : ℕ := 0
  tableSwitchEpoch : ℕ := 0
  flushSlots : ℕ := 4
  pendingFlushes : List (ℕ × ℕ) := []
  canWrite : ℕ := 0
  permits : ℕ → ℕ := initial
  tasks : List FlushTask := []
  taskPc : ℕ → FlushPc := fun _ => .draining
  currents : List ℕ := [0]
  inserted : List (ℕ × ℕ) := []
  l0 : List ℕ := []

/-! ### Steps -/

/-- The next action of `_flush(expected)` of caller `t`. -/
def switchStep (t : ι) (expected : ℕ) (g : SwitchState ι) :
    SwitchPc → Option (SwitchState ι × SwitchPc)
  | .idle => none
  | .lock =>
      match g.flushMutex with
      | some _ => some (g, .idle)
      | none => some ({ g with flushMutex := some t }, .guard)
  | .guard =>
      if g.table ≠ expected then some ({ g with flushMutex := none }, .idle)
      else some (g, .epoch)
  | .epoch => some ({ g with flushEpoch := g.flushEpoch + 1 }, .freeze g.flushEpoch)
  | .freeze epoch => some ({ g with frozen := Function.update g.frozen expected true }, .slot epoch)
  | .slot epoch =>
      if 0 < g.flushSlots then some ({ g with flushSlots := g.flushSlots - 1 }, .pipelined epoch)
      else none
  | .pipelined epoch => if g.pipelined.isSome then some (g, .swap epoch) else none
  | .swap epoch =>
      match g.pipelined with
      | none => none
      | some next =>
          some ({ g with
            pipelined := none
            table := next
            pendingFlushes := insertPending epoch g.table g.pendingFlushes
            currents := g.currents ++ [next]
            inserted := g.inserted ++
              if epoch ∈ g.pendingFlushes.map Prod.fst then [] else [(epoch, g.table)] },
            .bump epoch g.table)
  | .bump epoch flushed =>
      some ({ g with tableSwitchEpoch := g.tableSwitchEpoch + 1 }, .pipeline epoch flushed)
  | .pipeline epoch flushed => some ({ g with makers := g.makers + 1 }, .chain epoch flushed)
  | .chain epoch flushed =>
      some ({ g with canWrite := g.canWrite + 1 }, .spawn epoch flushed g.canWrite)
  | .spawn epoch flushed canWrite =>
      some ({ g with tasks := g.tasks ++ [⟨epoch, flushed, canWrite⟩] }, .unlock)
  | .unlock => some ({ g with flushMutex := none }, .idle)

/-- What a caller does: load the current table into its reference, call `_flush` with
it, or go on with the call. -/
inductive CallerAct
  | load
  | call
  | run

def callerAct (t : ι) (a : CallerAct) (g : SwitchState ι) (l : CallerState) :
    Option (SwitchState ι × CallerState) :=
  match a with
  | .load => if l.pc = .idle then some (g, { l with ref := some g.table }) else none
  | .call => if l.pc = .idle ∧ l.ref.isSome then some (g, { l with pc := .lock }) else none
  | .run => (switchStep t (l.ref.getD 0) g l.pc).map fun r => (r.1, { l with pc := r.2 })

/-- The actions of `_flush_inner`. -/
inductive FlushInnerAct
  | drain
  | write (ok : Bool)
  | acquire
  | publish
  | release
  | releaseSlot
  | finish

/-- What happens in the background: a spawned task stores a new table into the pipeline,
a compaction draws a number of the same counter, or flush `i` moves on. -/
inductive FlusherAct
  | make
  | draw
  | task (i : ℕ) (a : FlushInnerAct)

namespace SwitchState

variable (g : SwitchState ι)

def setPc (i : ℕ) (pc : FlushPc) : SwitchState ι := { g with taskPc := Function.update g.taskPc i pc }

end SwitchState

/-- One action of `_flush_inner` with `task`, the `i`-th one. -/
def flushInnerStep (g : SwitchState ι) (i : ℕ) (task : FlushTask) :
    FlushInnerAct → Option (SwitchState ι)
  -- every writer of the table is done
  | .drain => if g.taskPc i = .draining then some (g.setPc i .writing) else none
  | .write ok =>
      if g.taskPc i = .writing then some (g.setPc i (if ok then .written else .failing)) else none
  | .acquire =>
      if g.taskPc i = .written ∧ 0 < g.permits task.canWrite then
        some { g.setPc i .permitted with
          permits := Function.update g.permits task.canWrite (g.permits task.canWrite - 1) }
      else none
  | .publish =>
      if g.taskPc i = .permitted then
        some { g.setPc i .published with
          pendingFlushes := g.pendingFlushes.filter fun q => q.1 ≠ task.epoch
          l0 := g.l0 ++ [task.table] }
      else none
  | .release =>
      if g.taskPc i = .published then
        some { g.setPc i .released with
          permits := Function.update g.permits (task.canWrite + 1) (g.permits (task.canWrite + 1) + 1) }
      else none
  | .releaseSlot =>
      if g.taskPc i = .released then
        some { g.setPc i .slotReleased with flushSlots := g.flushSlots + 1 }
      -- the error path gives back the slot and nothing else
      else if g.taskPc i = .failing then
        some { g.setPc i .failed with flushSlots := g.flushSlots + 1 }
      else none
  | .finish => if g.taskPc i = .slotReleased then some (g.setPc i .finished) else none

def flusherAct (a : FlusherAct) (g : SwitchState ι) : Option (SwitchState ι) :=
  match a with
  | .make =>
      if 0 < g.makers then
        some { g with makers := g.makers - 1, pipelined := some g.created, created := g.created + 1 }
      else none
  | .draw => some { g with flushEpoch := g.flushEpoch + 1 }
  | .task i a => (g.tasks[i]?).bind fun task => flushInnerStep g i task a

def flusher (ι : Type*) :
    Interleave.System ι (SwitchState ι) CallerState CallerAct FlusherAct where
  act := callerAct
  background := flusherAct

/-- A memtable with its first table and the pipelined one, `maxPendingFlushes` slots, and
the counter at `flushEpoch`. -/
def newFlusher (ι : Type*) (maxPendingFlushes flushEpoch : ℕ) :
    Interleave.State ι (SwitchState ι) CallerState :=
  ⟨{ flushSlots := maxPendingFlushes, flushEpoch }, fun _ => {}⟩

/-! ### The switches of every run -/

/-- The epoch and the table of a flush. -/
def FlushTask.data (task : FlushTask) : ℕ × ℕ := (task.epoch, task.table)

/-- All switches are over: every pending table has its flush. -/
structure Settled (g : SwitchState ι) : Prop where
  tasks : g.tasks.length = g.inserted.length
  canWrite : g.canWrite = g.tasks.length

structure SwitchOk (g : SwitchState ι) : Prop where
  currents : g.currents = range (g.table + 1)
  inserted : g.inserted.map Prod.snd = range g.table
  epochs : (g.inserted.map Prod.fst).Pairwise (· < ·)
  epochs_lt : ∀ q ∈ g.inserted, q.1 < g.flushEpoch
  pending : ∀ q ∈ g.pendingFlushes, q ∈ g.inserted
  frozen : ∀ i < g.table, g.frozen i = true
  created : g.created = g.table + 1 + g.pipelined.toList.length
  pipelined : ∀ j ∈ g.pipelined, j = g.table + 1 ∧ g.makers = 0
  makers : g.makers ≤ 1
  tasks : g.tasks.map FlushTask.data = g.inserted.take g.tasks.length
  positions : g.tasks.map FlushTask.canWrite = range g.tasks.length
  settled : g.flushMutex = none → Settled g

/-- The last table taken out has no flush yet. -/
structure Launching (g : SwitchState ι) (epoch flushed : ℕ) : Prop where
  tasks : g.tasks.length + 1 = g.inserted.length
  last : g.inserted[g.tasks.length]? = some (epoch, flushed)

/-- What a call of `_flush(expected)` relies on while it has the mutex. -/
def SwitchAt (g : SwitchState ι) (expected : ℕ) : SwitchPc → Prop
  | .idle | .lock => True
  | .guard | .unlock => Settled g
  | .epoch => Settled g ∧ expected = g.table
  | .freeze epoch => Settled g ∧ expected = g.table ∧
      (∀ q ∈ g.inserted, q.1 < epoch) ∧ epoch < g.flushEpoch
  | .slot epoch | .pipelined epoch | .swap epoch => Settled g ∧ g.frozen g.table = true ∧
      (∀ q ∈ g.inserted, q.1 < epoch) ∧ epoch < g.flushEpoch
  | .bump epoch flushed | .pipeline epoch flushed => Launching g epoch flushed ∧
      g.canWrite = g.tasks.length ∧ g.pipelined = none ∧ g.makers = 0
  | .chain epoch flushed => Launching g epoch flushed ∧ g.canWrite = g.tasks.length
  | .spawn epoch flushed canWrite => Launching g epoch flushed ∧ canWrite = g.tasks.length ∧
      g.canWrite = g.tasks.length + 1

/-- The call is inside the section that the mutex protects. -/
def SwitchPc.inside : SwitchPc → Bool
  | idle | lock => false
  | _ => true

/-- Where caller `t` may be. -/
structure CallerOk (t : ι) (g : SwitchState ι) (l : CallerState) : Prop where
  mutex : l.pc.inside = true ↔ g.flushMutex = some t
  at_pc : SwitchAt g (l.ref.getD 0) l.pc

variable {epoch : ℕ}

theorem insertPending_of_lt {table : ℕ} {l : List (ℕ × ℕ)} (h : ∀ q ∈ l, q.1 < epoch) :
    insertPending epoch table l = l ++ [(epoch, table)] := by
  induction l with
  | nil => rfl
  | cons q rest ih =>
    have hq := h q mem_cons_self
    rw [insertPending, if_neg hq.not_gt, if_neg hq.ne', ih fun r hr => h r (mem_cons_of_mem q hr)]
    rfl

variable {l : CallerState}

section Switch

variable {g g' : SwitchState ι} {t u : ι} {expected : ℕ} {pc pc' : SwitchPc}

theorem SwitchOk.swap (h : SwitchOk g) {next : ℕ} (hat : SwitchAt g expected (.swap epoch))
    (hnext : g.pipelined = some next) {g' : SwitchState ι} (hg' : g' = { g with
      pipelined := none
      table := next
      pendingFlushes := insertPending epoch g.table g.pendingFlushes
      currents := g.currents ++ [next]
      inserted := g.inserted ++
        if epoch ∈ g.pendingFlushes.map Prod.fst then [] else [(epoch, g.table)] })
    (hheld : g.flushMutex ≠ none) : SwitchOk g' ∧ SwitchAt g' expected (.bump epoch g.table) := by
  obtain ⟨hsettled, hfrozen, hfresh, hdrawn⟩ := hat
  obtain ⟨rfl, hmakers⟩ := h.pipelined next hnext
  -- the epoch is newer than every one in the map, so the table goes to its end
  have hpending : ∀ q ∈ g.pendingFlushes, q.1 < epoch := fun q hq => hfresh q (h.pending q hq)
  have hnew : epoch ∉ g.pendingFlushes.map Prod.fst := by
    intro hmem
    obtain ⟨q, hq, rfl⟩ := mem_map.mp hmem
    exact lt_irrefl _ (hpending q hq)
  rw [insertPending_of_lt hpending, if_neg hnew] at hg'
  subst hg'
  refine ⟨⟨?_, ?_, ?_, ?_, ?_, ?_, ?_, nofun, h.makers, ?_, h.positions,
    fun hnone => absurd hnone hheld⟩, ⟨?_, ?_⟩, hsettled.canWrite, rfl, hmakers⟩
  · show g.currents ++ [g.table + 1] = range (g.table + 1 + 1)
    rw [h.currents, range_succ (n := g.table + 1)]
  · show (g.inserted ++ [(epoch, g.table)]).map Prod.snd = range (g.table + 1)
    rw [map_append, h.inserted, range_succ]
    rfl
  · show ((g.inserted ++ [(epoch, g.table)]).map Prod.fst).Pairwise (· < ·)
    rw [map_append, pairwise_append]
    refine ⟨h.epochs, pairwise_singleton _ _, fun a ha b hb => ?_⟩
    obtain ⟨q, hq, rfl⟩ := mem_map.mp ha
    obtain rfl := mem_singleton.mp hb
    exact hfresh q hq
  · intro q hq
    rcases mem_append.mp hq with hq' | hq'
    · exact h.epochs_lt q hq'
    · obtain rfl := mem_singleton.mp hq'
      exact hdrawn
  · intro q hq
    rcases mem_append.mp hq with hq' | hq'
    · exact mem_append_left _ (h.pending q hq')
    · exact mem_append_right _ hq'
  · intro i hi
    rcases Nat.lt_succ_iff_lt_or_eq.mp hi with hi' | rfl
    · exact h.frozen i hi'
    · exact hfrozen
  · show g.created = g.table + 1 + 1 + 0
    rw [h.created, hnext]
    rfl
  · show g.tasks.map FlushTask.data = (g.inserted ++ [(epoch, g.table)]).take g.tasks.length
    rw [take_append_of_le_length hsettled.tasks.le]
    exact h.tasks
  · show g.tasks.length + 1 = (g.inserted ++ [(epoch, g.table)]).length
    rw [length_append, hsettled.tasks]
    rfl
  · show (g.inserted ++ [(epoch, g.table)])[g.tasks.length]? = some (epoch, g.table)
    rw [hsettled.tasks]
    exact getElem?_concat_length

theorem SwitchOk.spawn (h : SwitchOk g) {flushed canWrite : ℕ}
    (hat : SwitchAt g expected (.spawn epoch flushed canWrite)) (hheld : g.flushMutex ≠ none) :
    SwitchOk { g with tasks := g.tasks ++ [⟨epoch, flushed, canWrite⟩] } ∧
      Settled { g with tasks := g.tasks ++ [⟨epoch, flushed, canWrite⟩] } := by
  obtain ⟨⟨htasks, hlast⟩, rfl, hcan⟩ := hat
  have hlen : (g.tasks ++ [(⟨epoch, flushed, g.tasks.length⟩ : FlushTask)]).length =
      g.tasks.length + 1 := by
    rw [length_append]
    rfl
  refine ⟨{ h with tasks := ?_, positions := ?_, settled := fun hnone => absurd hnone hheld },
    hlen.trans htasks, hcan.trans hlen.symm⟩
  · show (g.tasks ++ [_]).map FlushTask.data = g.inserted.take (g.tasks ++ [_]).length
    rw [hlen, map_append, h.tasks, take_add_one, hlast]
    rfl
  · show (g.tasks ++ [_]).map FlushTask.canWrite = range (g.tasks ++ [_]).length
    rw [hlen, map_append, h.positions, range_succ]
    rfl

/-- **One action of `_flush`** keeps the switches in order and leads to where the call
may be. -/
theorem switchStep_ok (h : SwitchOk g) (hmutex : pc.inside = true ↔ g.flushMutex = some t)
    (hat : SwitchAt g expected pc) (hstep : switchStep t expected g pc = some (g', pc')) :
    SwitchOk g' ∧ (pc'.inside = true ↔ g'.flushMutex = some t) ∧ SwitchAt g' expected pc' := by
  cases pc with
  | idle => cases hstep
  | lock =>
    rw [switchStep] at hstep
    split at hstep
    · cases hstep
      exact ⟨h, hmutex, trivial⟩
    · next hnone =>
      cases hstep
      refine ⟨{ h with settled := nofun }, iff_of_true rfl rfl, ?_⟩
      exact ⟨(h.settled hnone).tasks, (h.settled hnone).canWrite⟩
  | guard =>
    rw [switchStep] at hstep
    split at hstep
    · cases hstep
      exact ⟨{ h with settled := fun _ => { hat with } }, ⟨nofun, nofun⟩,
        trivial⟩
    · next heq =>
      cases hstep
      exact ⟨h, iff_of_true rfl (hmutex.mp rfl), hat, (not_not.mp heq).symm⟩
  | epoch =>
    cases hstep
    refine ⟨{ h with
      epochs_lt := fun q hq => Nat.lt_succ_of_lt (h.epochs_lt q hq)
      settled := fun hnone => { h.settled hnone with } },
      iff_of_true rfl (hmutex.mp rfl),
      { hat.1 with }, hat.2, h.epochs_lt, Nat.lt_succ_self _⟩
  | freeze epoch =>
    cases hstep
    obtain ⟨hsettled, rfl, hfresh⟩ := hat
    refine ⟨{ h with frozen := fun i hi => ?_, settled := fun hnone => { h.settled hnone with } },
      iff_of_true rfl (hmutex.mp rfl),
      ⟨hsettled.tasks, hsettled.canWrite⟩, Function.update_self _ _ _, hfresh⟩
    exact (Function.update_of_ne (Nat.ne_of_lt hi) _ _).trans (h.frozen i hi)
  | slot epoch =>
    obtain ⟨-, hs⟩ := ite_none_right_eq_some.mp hstep
    cases hs
    exact ⟨{ h with settled := fun hnone => { h.settled hnone with } },
      iff_of_true rfl (hmutex.mp rfl),
      { hat.1 with }, hat.2⟩
  | pipelined epoch =>
    obtain ⟨-, hs⟩ := ite_none_right_eq_some.mp hstep
    cases hs
    exact ⟨h, iff_of_true rfl (hmutex.mp rfl), hat⟩
  | swap epoch =>
    have hheld : g.flushMutex ≠ none := by
      rw [hmutex.mp rfl]
      nofun
    rw [switchStep] at hstep
    split at hstep
    · cases hstep
    · next next hnext =>
      cases hstep
      obtain ⟨hok, hat'⟩ := h.swap hat hnext rfl hheld
      exact ⟨hok, iff_of_true rfl (hmutex.mp rfl), hat'⟩
  | bump epoch flushed =>
    cases hstep
    exact ⟨{ h with settled := fun hnone => { h.settled hnone with } },
      iff_of_true rfl (hmutex.mp rfl),
      { hat.1 with }, hat.2⟩
  | pipeline epoch flushed =>
    cases hstep
    obtain ⟨hlaunch, hcan, hnone, hzero⟩ := hat
    refine ⟨{ h with pipelined := ?_, makers := ?_, settled := fun hfree => { h.settled hfree with } },
      iff_of_true rfl (hmutex.mp rfl),
      ⟨hlaunch.tasks, hlaunch.last⟩, hcan⟩
    · intro j hj
      rw [hnone] at hj
      cases hj
    · show g.makers + 1 ≤ 1
      rw [hzero]
  | chain epoch flushed =>
    cases hstep
    have hheld : g.flushMutex ≠ none := by
      rw [hmutex.mp rfl]
      nofun
    exact ⟨{ h with settled := fun hnone => absurd hnone hheld },
      iff_of_true rfl (hmutex.mp rfl), { hat.1 with }, hat.2, congrArg (· + 1) hat.2⟩
  | spawn epoch flushed canWrite =>
    cases hstep
    have hheld : g.flushMutex ≠ none := by
      rw [hmutex.mp rfl]
      nofun
    obtain ⟨hok, hsettled⟩ := h.spawn hat hheld
    exact ⟨hok, iff_of_true rfl (hmutex.mp rfl), hsettled⟩
  | unlock =>
    cases hstep
    exact ⟨{ h with settled := fun _ => { hat with } }, ⟨nofun, nofun⟩,
      trivial⟩

theorem switchStep_of_held (hmutex : pc.inside = true ↔ g.flushMutex = some t) (hu : u ≠ t)
    (hheld : g.flushMutex = some u) (hstep : switchStep t expected g pc = some (g', pc')) :
    g' = g := by
  have hout : ¬ pc.inside = true := fun hin =>
    hu (some_inj.mp (hheld.symm.trans (hmutex.mp hin)))
  cases pc with
  | idle => cases hstep
  | lock =>
    rw [switchStep, hheld] at hstep
    cases hstep
    rfl
  | _ => exact absurd rfl hout

theorem switchStep_mutex (hmutex : pc.inside = true ↔ g.flushMutex = some t) (hu : u ≠ t)
    (hstep : switchStep t expected g pc = some (g', pc')) (hheld : g'.flushMutex = some u) :
    g.flushMutex = some u := by
  have hne : some t ≠ some u := fun h => hu (some_inj.mp h).symm
  cases pc with
  | idle => cases hstep
  | lock =>
    rw [switchStep] at hstep
    split at hstep
    · cases hstep
      exact hheld
    · cases hstep
      exact absurd hheld hne
  | guard =>
    rw [switchStep] at hstep
    split at hstep
    · cases hstep
      cases hheld
    · cases hstep
      exact hheld
  | slot epoch | pipelined epoch =>
    obtain ⟨-, hs⟩ := ite_none_right_eq_some.mp hstep
    cases hs
    exact hheld
  | swap epoch =>
    rw [switchStep] at hstep
    split at hstep
    · cases hstep
    · cases hstep
      exact hheld
  | unlock =>
    cases hstep
    cases hheld
  | _ =>
    cases hstep
    exact hheld

theorem CallerOk.of_outside (hout : l.pc.inside = false) (hmutex : g.flushMutex ≠ some t) :
    CallerOk t g l := by
  refine ⟨iff_of_false (Bool.not_eq_true _ ▸ hout) hmutex, ?_⟩
  cases hpc : l.pc with
  | idle => trivial
  | lock => trivial
  | _ =>
    rw [hpc] at hout
    cases hout

theorem callerAct_ok {a : CallerAct} {l' : CallerState} {threads : ι → CallerState}
    (h : SwitchOk g) (hl : CallerOk t g l) (hothers : ∀ u, u ≠ t → CallerOk u g (threads u))
    (hact : callerAct t a g l = some (g', l')) :
    SwitchOk g' ∧ CallerOk t g' l' ∧ ∀ u, u ≠ t → CallerOk u g' (threads u) := by
  cases a with
  | load =>
    obtain ⟨hidle, hs⟩ := ite_none_right_eq_some.mp hact
    cases hs
    refine ⟨h, CallerOk.of_outside (congrArg SwitchPc.inside hidle) fun hheld => ?_, hothers⟩
    have hin := hl.mutex.mpr hheld
    rw [hidle] at hin
    cases hin
  | call =>
    obtain ⟨⟨hidle, -⟩, hs⟩ := ite_none_right_eq_some.mp hact
    cases hs
    refine ⟨h, CallerOk.of_outside rfl fun hheld => ?_, hothers⟩
    have hin := hl.mutex.mpr hheld
    rw [hidle] at hin
    cases hin
  | run =>
    obtain ⟨⟨g₁, pc₁⟩, hstep, hr⟩ := map_eq_some_iff.mp hact
    cases hr
    obtain ⟨hok, hmutex, hat⟩ := switchStep_ok h hl.mutex hl.at_pc hstep
    refine ⟨hok, ⟨hmutex, hat⟩, fun u hu => ?_⟩
    -- a caller inside the section has the mutex, so nothing changes under it
    by_cases hheld : g.flushMutex = some u
    · rw [switchStep_of_held hl.mutex hu hheld hstep]
      exact hothers u hu
    · have hout := mt (hothers u hu).mutex.mp hheld
      exact CallerOk.of_outside (Bool.eq_false_iff.mpr hout)
        (mt (switchStep_mutex hl.mutex hu hstep) hheld)

end Switch

/-! ### The background -/

/-- What a background action leaves to the callers. -/
structure Undisturbed (g g' : SwitchState ι) : Prop where
  flushMutex : g'.flushMutex = g.flushMutex
  table : g'.table = g.table
  frozen : g'.frozen = g.frozen
  inserted : g'.inserted = g.inserted
  canWrite : g'.canWrite = g.canWrite
  tasks : g'.tasks = g.tasks
  flushEpoch : g.flushEpoch ≤ g'.flushEpoch
  pipelined : g.makers = 0 → g'.pipelined = g.pipelined ∧ g'.makers = 0

section Background

variable {g g' : SwitchState ι}

theorem Undisturbed.settled (h : Undisturbed g g') (hs : Settled g) : Settled g' :=
  ⟨by rw [h.tasks, h.inserted, hs.tasks], by rw [h.canWrite, h.tasks, hs.canWrite]⟩

theorem Undisturbed.launching (h : Undisturbed g g') {flushed : ℕ}
    (hl : Launching g epoch flushed) : Launching g' epoch flushed :=
  ⟨by rw [h.tasks, h.inserted, hl.tasks], by rw [h.tasks, h.inserted, hl.last]⟩

theorem Undisturbed.fresh (h : Undisturbed g g')
    (hf : (∀ q ∈ g.inserted, q.1 < epoch) ∧ epoch < g.flushEpoch) :
    (∀ q ∈ g'.inserted, q.1 < epoch) ∧ epoch < g'.flushEpoch :=
  ⟨by rw [h.inserted]; exact hf.1, hf.2.trans_le h.flushEpoch⟩

theorem Undisturbed.switchAt (h : Undisturbed g g') {expected : ℕ} {pc : SwitchPc}
    (hat : SwitchAt g expected pc) : SwitchAt g' expected pc := by
  cases pc with
  | idle => trivial
  | lock => trivial
  | guard => exact h.settled hat
  | unlock => exact h.settled hat
  | epoch => exact ⟨h.settled hat.1, hat.2.trans h.table.symm⟩
  | freeze epoch => exact ⟨h.settled hat.1, hat.2.1.trans h.table.symm, h.fresh hat.2.2⟩
  | slot epoch | pipelined epoch | swap epoch =>
    refine ⟨h.settled hat.1, ?_, h.fresh hat.2.2⟩
    rw [h.frozen, h.table]
    exact hat.2.1
  | bump epoch flushed | pipeline epoch flushed =>
    obtain ⟨hlaunch, hcan, hnone, hzero⟩ := hat
    refine ⟨h.launching hlaunch, ?_, (h.pipelined hzero).1.trans hnone, (h.pipelined hzero).2⟩
    rw [h.canWrite, h.tasks, hcan]
  | chain epoch flushed =>
    refine ⟨h.launching hat.1, ?_⟩
    rw [h.canWrite, h.tasks, hat.2]
  | spawn epoch flushed canWrite =>
    refine ⟨h.launching hat.1, ?_, ?_⟩
    · rw [h.tasks, hat.2.1]
    · rw [h.canWrite, h.tasks, hat.2.2]

theorem CallerOk.undisturbed (h : Undisturbed g g') {t : ι} (hl : CallerOk t g l) :
    CallerOk t g' l :=
  ⟨h.flushMutex.symm ▸ hl.mutex, h.switchAt hl.at_pc⟩

/-- `_flush_inner` touches its own progress, the permits, the pending tables, the slots
and L0 only, and no table becomes pending by it. -/
theorem flushInnerStep_frame {i : ℕ} {task : FlushTask} {a : FlushInnerAct}
    (hstep : flushInnerStep g i task a = some g') :
    ∃ taskPc permits pendingFlushes flushSlots l0,
      g' = { g with taskPc, permits, pendingFlushes, flushSlots, l0 } ∧
        ∀ q ∈ pendingFlushes, q ∈ g.pendingFlushes := by
  cases a with
  | drain | write | acquire | release | finish =>
    obtain ⟨-, hs⟩ := ite_none_right_eq_some.mp hstep
    exact ⟨_, _, _, _, _, (some_inj.mp hs).symm, fun q hq => hq⟩
  | publish =>
    obtain ⟨-, hs⟩ := ite_none_right_eq_some.mp hstep
    exact ⟨_, _, _, _, _, (some_inj.mp hs).symm, fun q hq => (mem_filter.mp hq).1⟩
  | releaseSlot =>
    rw [flushInnerStep] at hstep
    split at hstep
    · exact ⟨_, _, _, _, _, (some_inj.mp hstep).symm, fun q hq => hq⟩
    · obtain ⟨-, hs⟩ := ite_none_right_eq_some.mp hstep
      exact ⟨_, _, _, _, _, (some_inj.mp hs).symm, fun q hq => hq⟩

theorem flusherAct_ok {a : FlusherAct} (h : SwitchOk g) (hact : flusherAct a g = some g') :
    SwitchOk g' ∧ Undisturbed g g' := by
  cases a with
  | make =>
    obtain ⟨hpos, hs⟩ := ite_none_right_eq_some.mp hact
    cases hs
    have hnone : g.pipelined = none := by
      by_contra hsome
      obtain ⟨j, hj⟩ := ne_none_iff_exists'.mp hsome
      exact hpos.ne' (h.pipelined j hj).2
    have hcreated : g.created = g.table + 1 := by
      rw [h.created, hnone]
      rfl
    have hone : g.makers = 1 := le_antisymm h.makers hpos
    refine ⟨{ h with
      created := ?_, pipelined := ?_, makers := ?_
      settled := fun hfree => { h.settled hfree with } },
      ⟨rfl, rfl, rfl, rfl, rfl, rfl, le_rfl, fun hzero => absurd hzero hpos.ne'⟩⟩
    · show g.created + 1 = g.table + 1 + 1
      rw [hcreated]
    · intro j hj
      obtain rfl := some_inj.mp hj
      refine ⟨hcreated, ?_⟩
      show g.makers - 1 = 0
      rw [hone]
    · show g.makers - 1 ≤ 1
      rw [hone]
      exact Nat.zero_le _
  | draw =>
    cases hact
    exact ⟨{ h with
      epochs_lt := fun q hq => Nat.lt_succ_of_lt (h.epochs_lt q hq)
      settled := fun hfree => { h.settled hfree with } },
      ⟨rfl, rfl, rfl, rfl, rfl, rfl, Nat.le_succ _, fun hzero => ⟨rfl, hzero⟩⟩⟩
  | task i a =>
    obtain ⟨task, -, hstep⟩ := bind_eq_some_iff.mp hact
    obtain ⟨_, _, _, _, _, rfl, hpending⟩ := flushInnerStep_frame hstep
    exact ⟨{ h with
      pending := fun q hq => h.pending q (hpending q hq)
      settled := fun hfree => { h.settled hfree with } },
      ⟨rfl, rfl, rfl, rfl, rfl, rfl, le_rfl, fun hzero => ⟨rfl, hzero⟩⟩⟩

end Background

theorem SwitchOk.start (maxPendingFlushes flushEpoch : ℕ) :
    SwitchOk (newFlusher ι maxPendingFlushes flushEpoch).shared :=
  ⟨rfl, rfl, Pairwise.nil, nofun, nofun, nofun, rfl,
    fun _ hj => ⟨(some_inj.mp hj).symm, rfl⟩, Nat.zero_le _, rfl, rfl, fun _ => ⟨rfl, rfl⟩⟩

end HedgeDB
