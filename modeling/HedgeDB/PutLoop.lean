/-
HedgeDB/PutLoop.lean

Whether the loop of `put_async` ends (`put_async`, `_flush` of `src/db/memtable.cc`,
`write_buffer` of `src/db/memtable.h`).

One thread writes and every flush completes.  A round that finds no room hands its table to
`_flush`, which puts a new table in its place; the next round finds the old table frozen and
loads the new one, the round after that tries again.  So the loop ends if a new table takes
the entry, and otherwise goes on with new tables for ever.

A new table has an arena whose budget is `memory_budget_cap`, with extents of 4 MiB: with a
smaller budget there is no extent at all, and no extent has room for a value of 4 MiB
(`put_returns_iff`).
-/
import HedgeDB.PutStorable
import HedgeDB.Run

namespace HedgeDB

open List

/-! ### The loop -/

/-- The arguments of `put_async`. -/
structure PutCall where
  key : Bytes
  value : Bytes
  type : ValueType
  deriving DecidableEq

/-- The table `_table`, whether `local_memtable_ref` is still the one before it, and the
call in progress with the table switches it has made. -/
structure PutLoop where
  table : WriteBuffer
  stale : Bool := false
  seqNr : UInt64 := 0
  call : Option PutCall := none
  switches : ℕ := 0

/-- `_make_memtable`. -/
def newBuffer (cfg : PutConfig) : WriteBuffer :=
  { valueArena := Arena.make cfg.memoryBudgetCap Arena.defaultExtentBytes }

section Loop

variable (checksum : Bytes → UInt32) (cfg : PutConfig)

/-- One iteration of the loop of `put_async`. -/
def PutLoop.iterate (s : PutLoop) (env : PutEnv) : PutLoop :=
  match s.call with
  | none => s
  | some c =>
      -- the table is frozen and another one in its place
      if s.stale then { s with stale := false }
      else
        match putRound checksum cfg env c.key c.value c.type s.seqNr s.table with
        | (.returned _, seqNr, table) => { s with table, seqNr, call := none }
        | (.flushed, seqNr, _) =>
            { s with
              table := newBuffer cfg
              stale := true
              seqNr
              switches := s.switches + 1 }

/-- The thread calls `put_async`, or its loop goes on. -/
inductive PutLoopAct
  | call (c : PutCall)
  | iterate (env : PutEnv)

def putLoopStep (s : PutLoop) : PutLoopAct → Option PutLoop
  | .call c => if s.call.isNone then some { s with call := some c, switches := 0 } else none
  | .iterate env => some (s.iterate checksum cfg env)

end Loop

/-- What a new table takes: its arena has an extent, and the value fits it. -/
def PutCall.Fits (cfg : PutConfig) (c : PutCall) : Prop :=
  Arena.defaultExtentBytes ≤ cfg.memoryBudgetCap ∧
    roundUp (c.value.length + 1) valueDataAlignment ≤ Arena.defaultExtentBytes

instance decidablePutCallFits (cfg : PutConfig) (c : PutCall) : Decidable (c.Fits cfg) :=
  inferInstanceAs (Decidable (_ ∧ _))

/-! ### Arenas of tables -/

/-- What holds of the arena of a table, however much it has handed out. -/
structure ArenaOf (cfg : PutConfig) (a : Arena) : Prop where
  extentSize : a.extentSize = Arena.defaultExtentBytes
  budget : a.budget = cfg.memoryBudgetCap
  noExtent : cfg.memoryBudgetCap < Arena.defaultExtentBytes → a.currExtent = none

namespace ArenaOf

variable {cfg : PutConfig} {a : Arena} {n : ℕ}

theorem allocateNewExtent (h : ArenaOf cfg a) : ArenaOf cfg a.allocateNewExtent := by
  have hsize := h.extentSize
  have hbudget := h.budget
  unfold Arena.allocateNewExtent
  split
  · exact ⟨hsize, hbudget, fun _ => rfl⟩
  · refine ⟨hsize, hbudget, fun hsmall => ?_⟩
    omega

theorem make (cfg : PutConfig) :
    ArenaOf cfg (Arena.make cfg.memoryBudgetCap Arena.defaultExtentBytes) := by
  apply allocateNewExtent
  exact ⟨rfl, rfl, fun _ => rfl⟩

theorem takeItems (h : ArenaOf cfg a) : ArenaOf cfg (a.takeItems n).2 := by
  unfold Arena.takeItems
  split
  · exact h
  · exact ⟨h.extentSize, h.budget, h.noExtent⟩

theorem allocateMany (h : ArenaOf cfg a) (alignment : ℕ) :
    ArenaOf cfg (a.allocateMany n alignment).2 := by
  rw [Arena.allocateMany, Arena.allocateManyImpl]
  split
  · split
    · exact h
    · have hnew := h.allocateNewExtent
      apply takeItems
      exact ⟨hnew.extentSize, hnew.budget, hnew.noExtent⟩
  · exact h.takeItems

theorem allocateMany_none (h : ArenaOf cfg a) {alignment : ℕ}
    (hfits : ¬(Arena.defaultExtentBytes ≤ cfg.memoryBudgetCap ∧
      roundUp n alignment ≤ Arena.defaultExtentBytes)) :
    (a.allocateMany n alignment).1 = none := by
  have hsize := h.extentSize
  have htake : ∀ {b : Arena}, b.currExtent = none → (b.takeItems (roundUp n alignment)).1 = none := by
    intro b hb
    rw [Arena.takeItems, hb]
  rw [Arena.allocateMany, Arena.allocateManyImpl]
  by_cases hlarge : roundUp n alignment > Arena.defaultExtentBytes
  · rw [if_pos (by omega), if_pos (by omega)]
  · have hsmall : cfg.memoryBudgetCap < Arena.defaultExtentBytes := by
      by_contra hcap
      exact hfits ⟨Nat.not_lt.mp hcap, Nat.not_lt.mp hlarge⟩
    split
    · split
      · rfl
      · exact htake (h.allocateNewExtent.noExtent hsmall)
    · exact htake (h.noExtent hsmall)

end ArenaOf

variable {cfg : PutConfig}

theorem allocateMany_newBuffer {n alignment : ℕ}
    (hcap : Arena.defaultExtentBytes ≤ cfg.memoryBudgetCap)
    (hvalue : roundUp n alignment ≤ Arena.defaultExtentBytes) :
    ((newBuffer cfg).valueArena.allocateMany n alignment).1 = some (0, 0) := by
  have hext : max Arena.defaultExtentBytes 4096 = Arena.defaultExtentBytes := by decide
  have hbudget : ¬0 + Arena.defaultExtentBytes > cfg.memoryBudgetCap := by omega
  show ((Arena.make cfg.memoryBudgetCap Arena.defaultExtentBytes).allocateMany n alignment).1 = _
  rw [Arena.make, hext, Arena.allocateNewExtent, if_neg hbudget, Arena.allocateMany,
    Arena.allocateManyImpl, if_neg (by dsimp only; omega)]
  rfl

/-! ### Rounds -/

section Rounds

variable {checksum : Bytes → UInt32} {cfg : PutConfig} {env : PutEnv} {c : PutCall} {s : PutLoop}

theorem putRound_flushed {seqNr : UInt64} {t : WriteBuffer}
    (h : (t.valueArena.allocateMany (c.value.length + 1) valueDataAlignment).1 = none) :
    (putRound checksum cfg env c.key c.value c.type seqNr t).1 = .flushed := by
  unfold putRound
  rcases halloc : t.valueArena.allocateMany (c.value.length + 1) valueDataAlignment with ⟨ptr, a⟩
  rw [halloc] at h
  obtain rfl : ptr = none := h
  rfl

theorem putRound_arenaOf {seqNr : UInt64} {t : WriteBuffer} (h : ArenaOf cfg t.valueArena) :
    ArenaOf cfg (putRound checksum cfg env c.key c.value c.type seqNr t).2.2.valueArena := by
  have halloc := h.allocateMany (n := c.value.length + 1) valueDataAlignment
  unfold putRound
  rcases hcall : t.valueArena.allocateMany (c.value.length + 1) valueDataAlignment with ⟨- | ptr, a⟩
  · rw [hcall] at halloc
    exact halloc
  · rw [hcall] at halloc
    dsimp only
    repeat' split
    all_goals exact halloc

/-- **A new table takes what fits**, when there is memory for the node. -/
theorem putRound_newBuffer (hfits : c.Fits cfg) (hnode : env.nodeAllocated = true) (seqNr : UInt64) :
    ∃ status, (putRound checksum cfg env c.key c.value c.type seqNr (newBuffer cfg)).1 =
      .returned status := by
  have hptr := allocateMany_newBuffer hfits.1 hfits.2
  unfold putRound
  rcases halloc : (newBuffer cfg).valueArena.allocateMany (c.value.length + 1) valueDataAlignment with
    ⟨ptr, a⟩
  rw [halloc] at hptr
  obtain rfl : ptr = some (0, 0) := hptr
  -- its byte counter is zero, which is not above any cap
  have hcounter : ¬(newBuffer cfg).bytesWritten > cfg.memoryBudgetCap := Nat.not_lt_zero _
  dsimp only
  rw [if_neg (by simp [hnode]), if_neg hcounter]
  split
  · exact ⟨_, rfl⟩
  · exact ⟨_, rfl⟩

theorem iterate_stale (hcall : s.call = some c) (hstale : s.stale = true) :
    s.iterate checksum cfg env = { s with stale := false } := by
  unfold PutLoop.iterate
  rw [hcall]
  dsimp only
  rw [if_pos hstale]

theorem iterate_returned (hcall : s.call = some c) (hstale : s.stale = false) {status : Expected Unit}
    (hround : (putRound checksum cfg env c.key c.value c.type s.seqNr s.table).1 = .returned status) :
    (s.iterate checksum cfg env).call = none ∧ (s.iterate checksum cfg env).stale = false ∧
      (s.iterate checksum cfg env).switches = s.switches := by
  unfold PutLoop.iterate
  rw [hcall]
  dsimp only
  rw [if_neg (by simp [hstale])]
  rcases hput : putRound checksum cfg env c.key c.value c.type s.seqNr s.table with ⟨round, seqNr, t⟩
  rw [hput] at hround
  obtain rfl : round = .returned status := hround
  exact ⟨rfl, hstale, rfl⟩

theorem iterate_flushed (hcall : s.call = some c) (hstale : s.stale = false)
    (hround : (putRound checksum cfg env c.key c.value c.type s.seqNr s.table).1 = .flushed) :
    ∃ seqNr, s.iterate checksum cfg env =
      { s with
        table := newBuffer cfg
        stale := true
        seqNr
        switches := s.switches + 1 } := by
  unfold PutLoop.iterate
  rw [hcall]
  dsimp only
  rw [if_neg (by simp [hstale])]
  rcases hput : putRound checksum cfg env c.key c.value c.type s.seqNr s.table with ⟨round, seqNr, t⟩
  rw [hput] at hround
  obtain rfl : round = .flushed := hround
  exact ⟨seqNr, rfl⟩

theorem iterate_idle (hcall : s.call = none) : s.iterate checksum cfg env = s := by
  unfold PutLoop.iterate
  rw [hcall]

theorem iterate_arenaOf (h : ArenaOf cfg s.table.valueArena) :
    ArenaOf cfg (s.iterate checksum cfg env).table.valueArena := by
  rcases hcall : s.call with - | c
  · rw [iterate_idle hcall]
    exact h
  · by_cases hstale : s.stale = true
    · rw [iterate_stale hcall hstale]
      exact h
    · have hround : ArenaOf cfg
          (putRound checksum cfg env c.key c.value c.type s.seqNr s.table).2.2.valueArena :=
        putRound_arenaOf h
      unfold PutLoop.iterate
      rw [hcall]
      dsimp only
      rw [if_neg hstale]
      split
      · next heq =>
        rw [heq] at hround
        exact hround
      · exact ArenaOf.make cfg

end Rounds

/-! ### Whole loops -/

section Loops

variable {checksum : Bytes → UInt32} {cfg : PutConfig} {c : PutCall} {s : PutLoop}

/-- What holds between iterations: no call is left with a frozen table. -/
structure PutLoopOk (cfg : PutConfig) (s : PutLoop) : Prop where
  arena : ArenaOf cfg s.table.valueArena
  idle : s.call = none → s.stale = false

theorem putLoopStep_ok {a : PutLoopAct} {s' : PutLoop} (h : PutLoopOk cfg s)
    (hstep : putLoopStep checksum cfg s a = some s') : PutLoopOk cfg s' := by
  cases a with
  | call c =>
    rw [putLoopStep] at hstep
    split at hstep
    · cases hstep
      refine ⟨h.arena, fun hnone => ?_⟩
      cases hnone
    · cases hstep
  | iterate env =>
    cases hstep
    refine ⟨iterate_arenaOf h.arena, fun hnone => ?_⟩
    rcases hcall : s.call with - | c
    · rw [iterate_idle hcall]
      exact h.idle hcall
    · by_cases hstale : s.stale = true
      · rw [iterate_stale hcall hstale]
      · rw [Bool.not_eq_true] at hstale
        rcases hround : (putRound checksum cfg env c.key c.value c.type s.seqNr s.table).1 with
          status | -
        · exact (iterate_returned hcall hstale hround).2.1
        · obtain ⟨seqNr, heq⟩ := iterate_flushed hcall hstale hround
          rw [heq, hcall] at hnone
          cases hnone

theorem foldl_iterate_idle (hcall : s.call = none) (envs : List PutEnv) :
    envs.foldl (PutLoop.iterate checksum cfg) s = s := by
  induction envs with
  | nil => rfl
  | cons env envs ih => rw [foldl_cons, iterate_idle hcall, ih]

/-- **No table takes a value that does not fit**: the loop goes on. -/
theorem foldl_iterate_not_fits (harena : ArenaOf cfg s.table.valueArena) (hcall : s.call = some c)
    (hfits : ¬c.Fits cfg) (envs : List PutEnv) :
    (envs.foldl (PutLoop.iterate checksum cfg) s).call = some c := by
  induction envs generalizing s with
  | nil => exact hcall
  | cons env envs ih =>
    rw [foldl_cons]
    apply ih (iterate_arenaOf harena)
    by_cases hstale : s.stale = true
    · rw [iterate_stale hcall hstale]
      exact hcall
    · rw [Bool.not_eq_true] at hstale
      have hround : (putRound checksum cfg env c.key c.value c.type s.seqNr s.table).1 = .flushed :=
        putRound_flushed (harena.allocateMany_none hfits)
      obtain ⟨seqNr, heq⟩ := iterate_flushed hcall hstale hround
      rw [heq]
      exact hcall

/-- A call whose value fits has returned after three iterations, with one table switch at
most. -/
theorem foldl_iterate_fits (hcall : s.call = some c) (hstale : s.stale = false) (hfits : c.Fits cfg)
    {envs : List PutEnv} (hnodes : ∀ env ∈ envs, env.nodeAllocated = true) (hlen : 3 ≤ envs.length) :
    (envs.foldl (PutLoop.iterate checksum cfg) s).call = none ∧
      (envs.foldl (PutLoop.iterate checksum cfg) s).switches ≤ s.switches + 1 := by
  obtain ⟨e₁, e₂, e₃, rest, rfl⟩ : ∃ e₁ e₂ e₃ rest, envs = e₁ :: e₂ :: e₃ :: rest := by
    rcases envs with - | ⟨e₁, - | ⟨e₂, - | ⟨e₃, rest⟩⟩⟩
    · cases hlen
    · simp at hlen
    · simp at hlen
    · exact ⟨e₁, e₂, e₃, rest, rfl⟩
  have hnode : e₃.nodeAllocated = true := hnodes e₃ (by simp)
  rcases hround : (putRound checksum cfg e₁ c.key c.value c.type s.seqNr s.table).1 with status | -
  · -- the table takes it at once
    obtain ⟨hnone, -, hswitches⟩ := iterate_returned hcall hstale hround
    rw [foldl_cons, foldl_iterate_idle hnone]
    exact ⟨hnone, hswitches.le.trans (Nat.le_succ _)⟩
  · -- the frozen table, the new one
    obtain ⟨seqNr, heq⟩ := iterate_flushed hcall hstale hround
    rw [foldl_cons, heq, foldl_cons, iterate_stale (s := { s with
      table := newBuffer cfg, stale := true, seqNr, switches := s.switches + 1 }) hcall rfl,
      foldl_cons]
    obtain ⟨status, hnew⟩ : ∃ status,
        (putRound checksum cfg e₃ c.key c.value c.type seqNr (newBuffer cfg)).1 = .returned status :=
      putRound_newBuffer hfits hnode seqNr
    obtain ⟨hnone, -, hswitches⟩ := iterate_returned (s := { s with
      table := newBuffer cfg, stale := false, seqNr, switches := s.switches + 1 }) hcall rfl hnew
    rw [foldl_iterate_idle hnone]
    exact ⟨hnone, hswitches.le⟩

end Loops

/-- A memtable before the first call. -/
def newPutLoop (cfg : PutConfig) : PutLoop := { table := newBuffer cfg }

def PutLoop.begin (s : PutLoop) (c : PutCall) : PutLoop := { s with call := some c, switches := 0 }

/-- The call leaves its loop after a bounded number of iterations, if the nodes of the skip
list get memory. -/
def PutLoop.Returns (checksum : Bytes → UInt32) (cfg : PutConfig) (s : PutLoop) : Prop :=
  ∃ bound, ∀ envs : List PutEnv, (∀ env ∈ envs, env.nodeAllocated = true) → bound ≤ envs.length →
    (envs.foldl (PutLoop.iterate checksum cfg) s).call = none

theorem not_returns {checksum : Bytes → UInt32} {s : PutLoop} {c : PutCall}
    (harena : ArenaOf cfg s.table.valueArena) (hcall : s.call = some c) (hfits : ¬c.Fits cfg) :
    ¬s.Returns checksum cfg := by
  rintro ⟨bound, hbound⟩
  have hnone := hbound (replicate bound ⟨true, .ok 0⟩) (by simp) (by simp)
  rw [foldl_iterate_not_fits harena hcall hfits] at hnone
  cases hnone

/-- **When the loop of `put_async` ends.**  After any earlier calls, a call leaves its loop
after a bounded number of iterations if and only if an arena of this budget has an extent and
the value fits it; then three iterations and one table switch are enough.  A new table takes
the entry under the same condition. -/
theorem put_returns_iff (checksum : Bytes → UInt32) (cfg : PutConfig) {acts : List PutLoopAct}
    {s : PutLoop} (hrun : Run.exec (putLoopStep checksum cfg) (newPutLoop cfg) acts = some s)
    (hidle : s.call = none) (c : PutCall) :
    ((s.begin c).Returns checksum cfg ↔ c.Fits cfg) ∧
    (c.Fits cfg → ∀ envs : List PutEnv, (∀ env ∈ envs, env.nodeAllocated = true) →
      3 ≤ envs.length → (envs.foldl (PutLoop.iterate checksum cfg) (s.begin c)).call = none ∧
        (envs.foldl (PutLoop.iterate checksum cfg) (s.begin c)).switches ≤ 1) ∧
    ∀ env seqNr, env.nodeAllocated = true →
      ((∃ status, (putRound checksum cfg env c.key c.value c.type seqNr (newBuffer cfg)).1 =
        .returned status) ↔ c.Fits cfg) := by
  have hok : PutLoopOk cfg s :=
    Run.exec_invariant (fun _ _ _ h _ hstep => putLoopStep_ok h hstep)
      ⟨ArenaOf.make cfg, fun _ => rfl⟩ (Run.allSteps_true _ _) hrun
  have hreturns : c.Fits cfg → ∀ envs : List PutEnv, (∀ env ∈ envs, env.nodeAllocated = true) →
      3 ≤ envs.length → (envs.foldl (PutLoop.iterate checksum cfg) (s.begin c)).call = none ∧
        (envs.foldl (PutLoop.iterate checksum cfg) (s.begin c)).switches ≤ 1 := by
    intro hfits envs hnodes hlen
    exact foldl_iterate_fits (s := s.begin c) rfl (hok.idle hidle) hfits hnodes hlen
  refine ⟨⟨?_, fun hfits => ⟨3, fun envs hnodes hlen => (hreturns hfits envs hnodes hlen).1⟩⟩, hreturns,
    fun env seqNr hnode => ⟨?_, fun hfits => putRound_newBuffer hfits hnode seqNr⟩⟩
  · intro hbound
    by_contra hfits
    exact not_returns (s := s.begin c) hok.arena rfl hfits hbound
  · rintro ⟨status, hstatus⟩
    by_contra hfits
    have hflushed : (putRound checksum cfg env c.key c.value c.type seqNr (newBuffer cfg)).1 = .flushed :=
      putRound_flushed ((ArenaOf.make cfg).allocateMany_none hfits)
    rw [hflushed] at hstatus
    cases hstatus

def smallestPutConfig : PutConfig :=
  { putConfig with memoryBudgetCap := Arena.defaultExtentBytes, useWal := false }

theorem put_returns_iff_smallest :
    ((newPutLoop smallestPutConfig).begin ⟨[1, 2], [7], .inPlaceValue⟩).Returns (fun _ => 0)
      smallestPutConfig := by
  have hrun : Run.exec (putLoopStep (fun _ => 0) smallestPutConfig) (newPutLoop smallestPutConfig) [] =
      some (newPutLoop smallestPutConfig) := rfl
  have hiff := put_returns_iff (fun _ => 0) smallestPutConfig hrun rfl ⟨[1, 2], [7], .inPlaceValue⟩
  exact hiff.1.mpr (by decide)

theorem not_fits_of_length {c : PutCall} (h : Arena.defaultExtentBytes ≤ c.value.length) :
    ¬c.Fits cfg := by
  intro hfits
  have hvalue := hfits.2
  rw [roundUp, valueDataAlignment] at hvalue
  omega

def largeValue : Bytes := replicate Arena.defaultExtentBytes 7

/-- **With one byte less the loop never ends**, since no table has memory for any value; nor
does it end for a value of 4 MiB, whatever the budget. -/
theorem put_spins :
    ¬((newPutLoop ⟨Arena.defaultExtentBytes - 1, false, 4, by decide⟩).begin
        ⟨[1, 2], [7], .inPlaceValue⟩).Returns (fun _ => 0)
          ⟨Arena.defaultExtentBytes - 1, false, 4, by decide⟩ ∧
      ¬((newPutLoop putConfig).begin ⟨[1, 2], largeValue, .inPlaceValue⟩).Returns (fun _ => 0)
        putConfig := by
  constructor
  · exact not_returns (ArenaOf.make _) rfl (by decide)
  · refine not_returns (ArenaOf.make _) rfl (not_fits_of_length ?_)
    show Arena.defaultExtentBytes ≤ largeValue.length
    exact length_replicate.ge

end HedgeDB
