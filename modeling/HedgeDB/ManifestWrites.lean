/-
HedgeDB/ManifestWrites.lean

Concurrent writers of one manifest (`_persist_partition_state`,
`_make_compaction_task` and `push_new_ssts_to_l0` in `src/db/sst_manager.cc`).

Tasks change the levels of a partition under its exclusive lock and bump
`levels_seq_num` before they release it; then they persist the partition.  A call
takes its snapshot and the generation under the shared lock, serializes, takes the
write lock, reads the generation again, takes a new snapshot if it has moved, and
writes the page.  A compaction unlinks its inputs once its call has returned ok.

The generation is read again without the levels lock, so between an update and its
bump.  What makes this safe is the write lock: the generation a call finds there is not
older than any that was written before, and the page it writes is of that generation.
-/
import HedgeDB.Interleave
import HedgeDB.Levels
import HedgeDB.Manifest

namespace HedgeDB

open Interleave List Function Option

variable {ι K : Type*}

/-! ### Level updates -/

/-- A change of the levels: the push of a flushed SST or the commit of a compaction
task. -/
inductive LevelUpdate (K : Type*)
  | push (sst : Sst K)
  | commit (level : ℕ) (inputs : List (Sst K)) (output : Sst K)

variable {levels : ℕ → List (Sst K)} {u : LevelUpdate K} {X : Sst K}

namespace LevelUpdate

def apply (cfg : SstManagerConfig) (levels : ℕ → List (Sst K)) : LevelUpdate K → ℕ → List (Sst K)
  | push sst => update levels 0 (levels 0 ++ [sst])
  | commit level inputs output => PartitionState.replaceInputs cfg levels level inputs output

def sst : LevelUpdate K → Sst K
  | push sst => sst
  | commit _ _ output => output

/-- The SSTs that are unlinked in the end. -/
def inputs : LevelUpdate K → List (Sst K)
  | push _ => []
  | commit _ inputs _ => inputs

/-- The level the new SST goes to. -/
def target (cfg : SstManagerConfig) : LevelUpdate K → ℕ
  | push _ => 0
  | commit level _ _ => PartitionState.targetLevel cfg level

/-- The update takes `X` out of level `i`. -/
def Erases (i : ℕ) (X : Sst K) : LevelUpdate K → Prop
  | push _ => False
  | commit level inputs _ => i = level ∧ X.id ∈ inputs.map Sst.id

theorem mem_apply {cfg : SstManagerConfig} {i : ℕ} (h : X ∈ u.apply cfg levels i) :
    (X ∈ levels i ∧ ¬ u.Erases i X) ∨ X = u.sst ∧ i = u.target cfg := by
  cases u with
  | push sst =>
    rw [apply, update_apply] at h
    split at h
    · next hi =>
      rcases mem_append.mp h with hold | hnew
      · exact .inl ⟨hi ▸ hold, id⟩
      · exact .inr ⟨mem_singleton.mp hnew, hi⟩
    · exact .inl ⟨h, id⟩
  | commit level inputs output =>
    rw [apply, replaceInputs_eq] at h
    rcases mem_append.mp h with hold | hnew
    · obtain ⟨hmem, hkept⟩ := mem_erasedLevel.mp hold
      exact .inl ⟨hmem, fun ⟨hi, hid⟩ => hkept hi hid⟩
    · split at hnew
      · next hi => exact .inr ⟨mem_singleton.mp hnew, hi⟩
      · exact absurd hnew not_mem_nil

end LevelUpdate

/-! ### The state -/

/-- The part of `_partition_state` and of the directory that the tasks share.
`flushIteration` numbers the files.  The last fields record what the code does not
keep: the levels of every generation, the generations of the pages written so far,
which task still holds an SST with some number, and whether a call that started in
the current generation has returned ok. -/
structure ManifestState (ι K : Type*) where
  levels : ℕ → List (Sst K)
  levelsSeqNum : ℕ := 0
  mutex : Option ι := none
  stateFileOpen : Bool := false
  stateWriteMutex : Option ι := none
  page : Option Text := none
  files : List Text := []
  flushIteration : ℕ := 0
  generations : ℕ → ℕ → List (Sst K) := fun _ => levels
  written : List ℕ := []
  drawnBy : ℕ → Option ι := fun _ => none
  settled : Bool := false

/-- The stages of `_persist_partition_state` once the file is open; `buf` is the
serialized snapshot and `snapGen` its generation. -/
inductive PersistPc
  | snapshot
  | lock (buf : Text) (snapGen : ℕ)
  | recheck (buf : Text) (snapGen : ℕ)
  | resnapshot
  | write (buf : Text) (snapGen : ℕ)
  | sync
  | syncDir

/-- Where a task is.  `started` is the generation in which its call started. -/
inductive TaskPc (K : Type*)
  | idle
  | update (u : LevelUpdate K)
  | bump (u : LevelUpdate K)
  | opening (inputs : List (Sst K))
  | persist (inputs : List (Sst K)) (started : ℕ) (pc : PersistPc)
  | unlink (inputs : List (Sst K))

/-- What a task does next: begin a flush, a compaction or a bare call, or go on with
what it is at.  `ok` is the outcome of a system call. -/
inductive TaskAct (K : Type*)
  | flush (sst : Sst K)
  | compact (level : ℕ) (inputs : List (Sst K)) (output : Sst K)
  | persist
  | run (ok : Bool)

variable (cfg : SstManagerConfig) (p : ℕ)

/-- The levels as the vector that is serialized. -/
def levelTree (levels : ℕ → List (Sst K)) : List (List (Sst K)) :=
  (range cfg.maxNumLevels).map levels

/-! ### Steps -/

/-- One step of `_persist_partition_state` of task `t`, from the first snapshot on. -/
def persistStep (t : ι) (ok : Bool) (inputs : List (Sst K)) (started : ℕ)
    (g : ManifestState ι K) : PersistPc → Option (ManifestState ι K × TaskPc K)
  | .snapshot =>
      if g.mutex.isNone then
        some (g, .persist inputs started
          (.lock (serializeLevels Sst.filename (levelTree cfg g.levels)) g.levelsSeqNum))
      else none
  | .lock buf snapGen =>
      if g.stateWriteMutex.isNone then
        some ({ g with stateWriteMutex := some t }, .persist inputs started (.recheck buf snapGen))
      else none
  | .recheck buf snapGen =>
      if g.levelsSeqNum ≠ snapGen then some (g, .persist inputs started .resnapshot)
      else some (g, .persist inputs started (.write buf snapGen))
  | .resnapshot =>
      if g.mutex.isNone then
        some (g, .persist inputs started
          (.write (serializeLevels Sst.filename (levelTree cfg g.levels)) g.levelsSeqNum))
      else none
  | .write buf snapGen =>
      if ok then
        some ({ g with
          page := some buf
          written := g.written ++ [snapGen]
          stateWriteMutex := none }, .persist inputs started .sync)
      else some ({ g with stateWriteMutex := none }, .idle)
  | .sync => some (g, if ok then .persist inputs started .syncDir else .idle)
  | .syncDir =>
      if ok then
        some ({ g with settled := g.settled || started == g.levelsSeqNum }, .unlink inputs)
      else some (g, .idle)

def taskStep (t : ι) (ok : Bool) (g : ManifestState ι K) :
    TaskPc K → Option (ManifestState ι K × TaskPc K)
  | .idle => none
  | .update u =>
      if g.mutex.isNone then
        some ({ g with
          mutex := some t
          levels := u.apply cfg g.levels
          drawnBy := update g.drawnBy u.sst.indexId none }, .bump u)
      else none
  | .bump u =>
      some ({ g with
        mutex := none
        levelsSeqNum := g.levelsSeqNum + 1
        generations := update g.generations (g.levelsSeqNum + 1) g.levels
        settled := false }, .opening u.inputs)
  | .opening inputs =>
      if g.mutex.isNone then
        if g.stateFileOpen then some (g, .persist inputs g.levelsSeqNum .snapshot)
        else if ok then
          some ({ g with
            stateFileOpen := true
            page := g.page.or (some (replicate pageSizeInBytes '\x00')) },
            .persist inputs g.levelsSeqNum .snapshot)
        else some (g, .idle)
      else none
  | .persist inputs started pc => persistStep cfg t ok inputs started g pc
  | .unlink [] => some (g, .idle)
  | .unlink (X :: rest) =>
      some ({ g with files := if ok then g.files.filter (· ≠ X.filename) else g.files },
        .unlink rest)

/-- An idle task draws a number and writes the file of a new SST. -/
def drawFile (t : ι) (sst : Sst K) (g : ManifestState ι K) : Option (ManifestState ι K) :=
  if sst.upperBound = p ∧ sst.indexId = g.flushIteration then
    some { g with
      flushIteration := g.flushIteration + 1
      files := g.files ++ [sst.filename]
      drawnBy := update g.drawnBy sst.indexId (some t) }
  else none

/-- One action of a task.  The inputs of a compaction come from a snapshot of the
levels. -/
def taskAct [DecidableEq K] (t : ι) (a : TaskAct K) (g : ManifestState ι K) (pc : TaskPc K) :
    Option (ManifestState ι K × TaskPc K) :=
  match a, pc with
  | .flush sst, .idle => (drawFile p t sst g).map fun g => (g, .update (.push sst))
  | .compact level inputs output, .idle =>
      if g.mutex.isNone ∧ level < cfg.maxNumLevels ∧ ∀ X ∈ inputs, X ∈ g.levels level then
        (drawFile p t output g).map fun g => (g, .update (.commit level inputs output))
      else none
  | .persist, .idle => some (g, .opening [])
  | .run ok, pc => taskStep cfg t ok g pc
  | _, _ => none

def manifestTasks [DecidableEq K] :
    System ι (ManifestState ι K) (TaskPc K) (TaskAct K) Empty where
  act := taskAct cfg p
  background b := b.elim

/-! ### What the tasks rely on -/

section Invariant

variable {cfg : SstManagerConfig} {p : ℕ}

/-- The levels of generation `n`; from the next generation on, the levels as they are
now. -/
def ManifestState.levelsAt (g : ManifestState ι K) (n : ℕ) : ℕ → List (Sst K) :=
  if n ≤ g.levelsSeqNum then g.generations n else g.levels

def ManifestState.pageGen (g : ManifestState ι K) : ℕ := g.written.getLastD 0

def InLevels (cfg : SstManagerConfig) (levels : ℕ → List (Sst K)) (X : Sst K) : Prop :=
  ∃ i < cfg.maxNumLevels, X ∈ levels i

/-- The page names the file. -/
def NamedIn (cfg : SstManagerConfig) (page name : Text) : Prop :=
  ∃ names, parseManifestAndLoadSsts .ok cfg.maxNumLevels page = .ok names ∧
    ∃ level ∈ names, name ∈ level

/-- An SST of the partition whose number was drawn and is in use. -/
structure Known (p : ℕ) (g : ManifestState ι K) (X : Sst K) : Prop where
  upperBound : X.upperBound = p
  indexId : X.indexId < g.flushIteration
  drawnBy : g.drawnBy X.indexId = none

structure SharedOk (cfg : SstManagerConfig) (p : ℕ) (g : ManifestState ι K) : Prop where
  current : g.mutex = none → g.generations g.levelsSeqNum = g.levels
  sorted : g.written.Pairwise (· ≤ ·)
  written_le : ∀ n ∈ g.written, n ≤ g.pageGen
  pageGen_le : g.pageGen ≤ g.levelsSeqNum
  page : g.written ≠ [] →
    g.page = some (serializeLevels Sst.filename (levelTree cfg (g.generations g.pageGen)))
  named : ∀ page name, g.page = some page → NamedIn cfg page name →
    ∃ X, InLevels cfg (g.generations g.pageGen) X ∧ X.filename = name
  files : ∀ n, g.pageGen ≤ n → ∀ X, InLevels cfg (g.levelsAt n) X → X.filename ∈ g.files
  known : ∀ n X, InLevels cfg (g.levelsAt n) X → Known p g X
  drawn_lt : ∀ i u, g.drawnBy i = some u → i < g.flushIteration
  unique : ∀ i < cfg.maxNumLevels, ∀ j < cfg.maxNumLevels, ∀ X ∈ g.levels i, ∀ Y ∈ g.levels j,
    X.indexId = Y.indexId → i = j ∧ X = Y
  settled : g.settled = true → g.written ≠ [] ∧ g.pageGen = g.levelsSeqNum

/-- SSTs that no generation from `c` on holds. -/
def Gone (cfg : SstManagerConfig) (p : ℕ) (g : ManifestState ι K) (c : ℕ)
    (inputs : List (Sst K)) : Prop :=
  ∀ X ∈ inputs, Known p g X ∧
    ∀ n, c ≤ n → ∀ Y, InLevels cfg (g.levelsAt n) Y → Y.indexId ≠ X.indexId

theorem Gone.mono {g : ManifestState ι K} {c c' : ℕ} {inputs : List (Sst K)}
    (h : Gone cfg p g c inputs) (hle : c ≤ c') : Gone cfg p g c' inputs :=
  fun X hX => ⟨(h X hX).1, fun n hn => (h X hX).2 n (hle.trans hn)⟩

/-- The inputs of a task are in the level they were picked from, or nowhere. -/
def InputsOk (cfg : SstManagerConfig) (p : ℕ) (g : ManifestState ι K) : LevelUpdate K → Prop
  | .push _ => True
  | .commit level inputs _ => ∀ X ∈ inputs, Known p g X ∧
      ∀ i < cfg.maxNumLevels, ∀ Y ∈ g.levels i, Y.indexId = X.indexId → i = level ∧ Y = X

/-- A serialized snapshot of a generation since the call started. -/
structure SerializedOk (cfg : SstManagerConfig) (g : ManifestState ι K) (started : ℕ) (buf : Text)
    (snapGen : ℕ) : Prop where
  started_le : started ≤ snapGen
  le : snapGen ≤ g.levelsSeqNum
  buf : buf = serializeLevels Sst.filename (levelTree cfg (g.generations snapGen))

def PersistOk (cfg : SstManagerConfig) (t : ι) (g : ManifestState ι K) (started : ℕ) :
    PersistPc → Prop
  | .snapshot => True
  | .lock buf snapGen => SerializedOk cfg g started buf snapGen
  | .recheck buf snapGen => g.stateWriteMutex = some t ∧ SerializedOk cfg g started buf snapGen
  | .resnapshot => g.stateWriteMutex = some t
  | .write buf snapGen =>
      g.stateWriteMutex = some t ∧ SerializedOk cfg g started buf snapGen ∧ g.pageGen ≤ snapGen
  | .sync | .syncDir => g.written ≠ [] ∧ started ≤ g.pageGen

/-- Where task `t` may be. -/
def TaskOk (cfg : SstManagerConfig) (p : ℕ) (t : ι) (g : ManifestState ι K) : TaskPc K → Prop
  | .idle => True
  | .update u => (u.sst.upperBound = p ∧ u.sst.indexId < g.flushIteration ∧
      g.drawnBy u.sst.indexId = some t ∧ u.sst.filename ∈ g.files) ∧ InputsOk cfg p g u
  | .bump u => g.mutex = some t ∧ Gone cfg p g (g.levelsSeqNum + 1) u.inputs
  | .opening inputs => Gone cfg p g g.levelsSeqNum inputs
  | .persist inputs started pc => started ≤ g.levelsSeqNum ∧ Gone cfg p g started inputs ∧
      PersistOk cfg t g started pc
  | .unlink inputs => Gone cfg p g g.pageGen inputs

/-! ### What a step leaves to the other tasks -/

/-- What an action of task `t` may change. -/
structure Changes (cfg : SstManagerConfig) (p : ℕ) (t : ι) (g g' : ManifestState ι K) : Prop where
  seqNum : g.levelsSeqNum ≤ g'.levelsSeqNum
  generations : ∀ n ≤ g.levelsSeqNum, g'.generations n = g.generations n
  pageGen : g.pageGen ≤ g'.pageGen
  written : g.written ≠ [] → g'.written ≠ []
  flushIteration : g.flushIteration ≤ g'.flushIteration
  unused : ∀ i < g.flushIteration, g.drawnBy i = none → g'.drawnBy i = none
  drawn : ∀ u, u ≠ t → ∀ i, g.drawnBy i = some u → g'.drawnBy i = some u
  levels : ∀ i, ∀ Y ∈ g'.levels i, Y ∈ g.levels i ∨ g.drawnBy Y.indexId = some t
  levelsAt : ∀ n Y, InLevels cfg (g'.levelsAt n) Y →
    InLevels cfg (g.levelsAt n) Y ∨ g.drawnBy Y.indexId = some t
  mutex : ∀ u, u ≠ t → g.mutex = some u →
    g'.mutex = some u ∧ g'.levelsSeqNum = g.levelsSeqNum
  writeMutex : ∀ u, u ≠ t → g.stateWriteMutex = some u →
    g'.stateWriteMutex = some u ∧ g'.written = g.written
  files : ∀ u, u ≠ t → ∀ X : Sst K, X.upperBound = p → g.drawnBy X.indexId = some u →
    X.filename ∈ g.files → X.filename ∈ g'.files

variable {started : ℕ}

section Stable

variable {t u : ι} {g g' : ManifestState ι K} (h : Changes cfg p t g g')

include h

theorem Known.stable (hX : Known p g X) : Known p g' X :=
  ⟨hX.upperBound, hX.indexId.trans_le h.flushIteration, h.unused _ hX.indexId hX.drawnBy⟩

theorem Gone.stable {c : ℕ} {inputs : List (Sst K)} (hgone : Gone cfg p g c inputs) :
    Gone cfg p g' c inputs := by
  intro X hX
  obtain ⟨hknown, hnot⟩ := hgone X hX
  refine ⟨hknown.stable h, fun n hn Y hY heq => ?_⟩
  rcases h.levelsAt n Y hY with hold | hnew
  · exact hnot n hn Y hold heq
  · rw [heq, hknown.drawnBy] at hnew
    exact nomatch hnew

theorem InputsOk.stable {u : LevelUpdate K} (hu : InputsOk cfg p g u) : InputsOk cfg p g' u := by
  cases u with
  | push sst => trivial
  | commit level inputs output =>
    intro X hX
    obtain ⟨hknown, honly⟩ := hu X hX
    refine ⟨hknown.stable h, fun i hi Y hY heq => ?_⟩
    rcases h.levels i Y hY with hold | hnew
    · exact honly i hi Y hold heq
    · rw [heq, hknown.drawnBy] at hnew
      exact nomatch hnew

theorem SerializedOk.stable {snapGen : ℕ} {buf : Text}
    (hs : SerializedOk cfg g started buf snapGen) : SerializedOk cfg g' started buf snapGen :=
  ⟨hs.started_le, hs.le.trans h.seqNum, by rw [h.generations _ hs.le, ← hs.buf]⟩

theorem PersistOk.stable (hu : u ≠ t) {pc : PersistPc} (hpc : PersistOk cfg u g started pc) :
    PersistOk cfg u g' started pc := by
  cases pc with
  | snapshot => trivial
  | lock buf snapGen => exact SerializedOk.stable h hpc
  | recheck buf snapGen => exact ⟨(h.writeMutex u hu hpc.1).1, hpc.2.stable h⟩
  | resnapshot => exact (h.writeMutex u hu hpc).1
  | write buf snapGen =>
    obtain ⟨hmutex, hsnap, hle⟩ := hpc
    obtain ⟨hmutex', hwritten⟩ := h.writeMutex u hu hmutex
    refine ⟨hmutex', hsnap.stable h, ?_⟩
    rwa [ManifestState.pageGen, hwritten]
  | sync | syncDir => exact ⟨h.written hpc.1, hpc.2.trans h.pageGen⟩

/-- **What a task relies on survives the steps of the others.** -/
theorem TaskOk.stable (hu : u ≠ t) {pc : TaskPc K} (hpc : TaskOk cfg p u g pc) :
    TaskOk cfg p u g' pc := by
  cases pc with
  | idle => trivial
  | update v =>
    obtain ⟨⟨hbound, hindex, hdrawn, hfile⟩, hinputs⟩ := hpc
    exact ⟨⟨hbound, hindex.trans_le h.flushIteration, h.drawn u hu _ hdrawn,
      h.files u hu _ hbound hdrawn hfile⟩, hinputs.stable h⟩
  | bump v =>
    obtain ⟨hmutex, hseq⟩ := h.mutex u hu hpc.1
    exact ⟨hmutex, by rw [hseq]; exact hpc.2.stable h⟩
  | opening inputs => exact (Gone.stable h hpc).mono h.seqNum
  | persist inputs started pc =>
    exact ⟨hpc.1.trans h.seqNum, hpc.2.1.stable h, hpc.2.2.stable h hu⟩
  | unlink inputs => exact (Gone.stable h hpc).mono h.pageGen

end Stable

/-! ### One step -/

variable {t : ι} {g g' : ManifestState ι K}

theorem Changes.refl (cfg : SstManagerConfig) (p : ℕ) (t : ι) (g : ManifestState ι K) :
    Changes cfg p t g g where
  seqNum := le_rfl
  generations _ _ := rfl
  pageGen := le_rfl
  written := id
  flushIteration := le_rfl
  unused _ _ := id
  drawn _ _ _ := id
  levels _ _ := .inl
  levelsAt _ _ := .inl
  mutex _ _ h := ⟨h, rfl⟩
  writeMutex _ _ h := ⟨h, rfl⟩
  files _ _ _ _ _ := id

theorem ManifestState.levelsAt_of_lt (g : ManifestState ι K) {n : ℕ} (h : g.levelsSeqNum < n) : g.levelsAt n = g.levels :=
  if_neg (Nat.not_le.mpr h)

theorem ManifestState.levelsAt_of_le (g : ManifestState ι K) {n : ℕ} (h : n ≤ g.levelsSeqNum) :
    g.levelsAt n = g.generations n :=
  if_pos h

theorem update_ok (h : SharedOk cfg p g) (hpc : TaskOk cfg p t g (.update u))
    (hfree : g.mutex = none) :
    let g' := { g with
      mutex := some t
      levels := u.apply cfg g.levels
      drawnBy := update g.drawnBy u.sst.indexId none }
    SharedOk cfg p g' ∧ TaskOk cfg p t g' (.bump u) ∧ Changes cfg p t g g' := by
  intro g'
  obtain ⟨⟨hbound, hindex, hdrawn, hfile⟩, hinputs⟩ := hpc
  have hnone : ∀ i, g.drawnBy i = none → g'.drawnBy i = none := by
    intro i hi
    show update g.drawnBy u.sst.indexId none i = none
    rw [update_apply]
    split
    · rfl
    · exact hi
  -- the SSTs of the new levels are old ones and the new one
  have hlevels : ∀ i, ∀ Y ∈ g'.levels i, Y ∈ g.levels i ∨ Y = u.sst ∧ i = u.target cfg :=
    fun i Y hY => (LevelUpdate.mem_apply hY).imp_left And.left
  have hlevelsAt : ∀ n Y, InLevels cfg (g'.levelsAt n) Y →
      InLevels cfg (g.levelsAt n) Y ∨ Y = u.sst := by
    rintro n Y ⟨i, hi, hY⟩
    by_cases hn : n ≤ g.levelsSeqNum
    · rw [g'.levelsAt_of_le hn] at hY
      exact .inl ⟨i, hi, by rwa [g.levelsAt_of_le hn]⟩
    · rw [g'.levelsAt_of_lt (Nat.not_le.mp hn)] at hY
      rw [g.levelsAt_of_lt (Nat.not_le.mp hn)]
      rcases hlevels i Y hY with hold | ⟨hnew, -⟩
      · exact .inl ⟨i, hi, hold⟩
      · exact .inr hnew
  have hchanges : Changes cfg p t g g' := by
    refine { Changes.refl cfg p t g with
      unused := fun i _ => hnone i
      drawn := fun v hv i hi => ?_
      levels := fun i Y hY => ?_
      levelsAt := fun n Y hY => ?_
      mutex := fun v _ hv => ?_ }
    · show update g.drawnBy u.sst.indexId none i = some v
      rw [update_of_ne, hi]
      rintro rfl
      exact hv (some.inj (hi.symm.trans hdrawn))
    · refine (hlevels i Y hY).imp_right fun hnew => ?_
      rw [hnew.1, hdrawn]
    · refine (hlevelsAt n Y hY).imp_right fun hnew => ?_
      rw [hnew, hdrawn]
    · rw [hfree] at hv
      exact nomatch hv
  have hnew : Known p g' u.sst := ⟨hbound, hindex, update_self ..⟩
  refine ⟨{ h with
    current := fun hm => nomatch hm
    files := fun n hn X hX => ?_
    known := fun n X hX => ?_
    drawn_lt := fun i v hv => ?_
    unique := fun i hi j hj X hX Y hY heq => ?_ }, ⟨rfl, fun X hX => ?_⟩, hchanges⟩
  · rcases hlevelsAt n X hX with hold | rfl
    · exact h.files n hn X hold
    · exact hfile
  · rcases hlevelsAt n X hX with hold | rfl
    · exact (h.known n X hold).stable hchanges
    · exact hnew
  · have hv' : update g.drawnBy u.sst.indexId none i = some v := hv
    rw [update_apply] at hv'
    split at hv'
    · exact nomatch hv'
    · exact h.drawn_lt i v hv'
  · have hold : ∀ k < cfg.maxNumLevels, ∀ Z ∈ g.levels k, Z.indexId ≠ u.sst.indexId := by
      intro k hk Z hZ hid
      have := (h.known (g.levelsSeqNum + 1) Z
        ⟨k, hk, by rwa [g.levelsAt_of_lt (Nat.lt_succ_self _)]⟩).drawnBy
      rw [hid, hdrawn] at this
      exact nomatch this
    rcases hlevels i X hX with hXold | ⟨rfl, rfl⟩ <;> rcases hlevels j Y hY with hYold | ⟨rfl, rfl⟩
    · exact h.unique i hi j hj X hXold Y hYold heq
    · exact absurd heq (hold i hi X hXold)
    · exact absurd heq.symm (hold j hj Y hYold)
    · exact ⟨rfl, rfl⟩
  · cases u with
    | push sst => exact absurd hX not_mem_nil
    | commit level inputs output =>
      obtain ⟨hknown, honly⟩ := hinputs X hX
      refine ⟨hknown.stable hchanges, fun n hn Y => ?_⟩
      rintro ⟨i, hi, hY⟩ heq
      rw [g'.levelsAt_of_lt (Nat.lt_of_succ_le hn)] at hY
      have hsource := LevelUpdate.mem_apply (u := .commit level inputs output) hY
      rcases hsource with ⟨hold, hkept⟩ | ⟨rfl, -⟩
      · obtain ⟨hlevel, rfl⟩ := honly i hi Y hold heq
        exact hkept ⟨hlevel, mem_map_of_mem hX⟩
      · exact nomatch hdrawn.symm.trans ((congrArg g.drawnBy heq).trans hknown.drawnBy)

theorem bump_ok (h : SharedOk cfg p g) (hpc : TaskOk cfg p t g (.bump u)) :
    let g' := { g with
      mutex := none
      levelsSeqNum := g.levelsSeqNum + 1
      generations := update g.generations (g.levelsSeqNum + 1) g.levels
      settled := false }
    SharedOk cfg p g' ∧ TaskOk cfg p t g' (.opening u.inputs) ∧ Changes cfg p t g g' := by
  intro g'
  have hgenerations : ∀ n ≤ g.levelsSeqNum, g'.generations n = g.generations n := fun n hn =>
    update_of_ne (by omega) ..
  have hlevelsAt : ∀ n, g'.levelsAt n = g.levelsAt n := by
    intro n
    rcases Nat.lt_trichotomy n (g.levelsSeqNum + 1) with hlt | rfl | hgt
    · rw [g.levelsAt_of_le (Nat.le_of_lt_succ hlt), g'.levelsAt_of_le hlt.le,
        hgenerations n (Nat.le_of_lt_succ hlt)]
    · rw [g'.levelsAt_of_le le_rfl, g.levelsAt_of_lt (Nat.lt_succ_self _)]
      exact update_self ..
    · rw [g'.levelsAt_of_lt hgt, g.levelsAt_of_lt (Nat.lt_of_succ_lt hgt)]
  have hchanges : Changes cfg p t g g' := by
    refine { Changes.refl cfg p t g with
      seqNum := Nat.le_succ _
      generations := hgenerations
      levelsAt := fun n Y hY => .inl (hlevelsAt n ▸ hY)
      mutex := fun v hv hm => ?_ }
    exact absurd (some.inj (hm.symm.trans hpc.1)) hv
  have hpageGen : g'.generations g'.pageGen = g.generations g.pageGen := hgenerations _ h.pageGen_le
  refine ⟨{ h with
    current := fun _ => update_self ..
    pageGen_le := h.pageGen_le.trans (Nat.le_succ _)
    page := fun hw => hpageGen ▸ h.page hw
    named := fun page name hp hn => hpageGen ▸ h.named page name hp hn
    files := fun n hn X hX => h.files n hn X (hlevelsAt n ▸ hX)
    known := fun n X hX => (h.known n X (hlevelsAt n ▸ hX)).stable hchanges
    settled := fun hs => nomatch hs }, hpc.2.stable hchanges, hchanges⟩

theorem drawFile_ok {sst : Sst K} (h : SharedOk cfg p g) (hdraw : drawFile p t sst g = some g') :
    SharedOk cfg p g' ∧ Changes cfg p t g g' ∧ g'.levels = g.levels ∧
      (sst.upperBound = p ∧ sst.indexId < g'.flushIteration ∧
        g'.drawnBy sst.indexId = some t ∧ sst.filename ∈ g'.files) := by
  rw [drawFile] at hdraw
  split at hdraw
  · next hsst =>
    obtain ⟨hbound, hindex⟩ := hsst
    obtain rfl := some.inj hdraw
    have hdrawnBy : ∀ i, i ≠ g.flushIteration →
        update g.drawnBy sst.indexId (some t) i = g.drawnBy i := fun i hi =>
      update_of_ne (hindex ▸ hi) ..
    refine ⟨{ h with
      files := fun n hn X hX => mem_append_left _ (h.files n hn X hX)
      known := fun n X hX => ?_
      drawn_lt := fun i u hu => ?_ }, { Changes.refl cfg p t g with
      flushIteration := Nat.le_succ _
      unused := fun i hi hnone => (hdrawnBy i hi.ne).trans hnone
      drawn := fun u hu i hi => (hdrawnBy i (h.drawn_lt i u hi).ne).trans hi
      files := fun u _ X _ _ hX => mem_append_left _ hX }, rfl, hbound,
        Nat.lt_succ_of_le hindex.le, update_self ..,
        mem_append_right _ (mem_singleton_self _)⟩
    · have hX := h.known n X hX
      exact ⟨hX.upperBound, hX.indexId.trans (Nat.lt_succ_self _),
        (hdrawnBy _ hX.indexId.ne).trans hX.drawnBy⟩
    · by_cases hi : i = g.flushIteration
      · rw [hi]
        exact Nat.lt_succ_self _
      · exact (h.drawn_lt i u ((hdrawnBy i hi).symm.trans hu)).trans (Nat.lt_succ_self _)
  · exact nomatch hdraw

theorem open_ok (h : SharedOk cfg p g) :
    let g' := { g with
      stateFileOpen := true
      page := g.page.or (some (replicate pageSizeInBytes '\x00')) }
    SharedOk cfg p g' ∧ Changes cfg p t g g' := by
  intro g'
  have hchanges : Changes cfg p t g g' := { Changes.refl cfg p t g with }
  refine ⟨{ h with
    page := fun hw => ?_
    named := fun page name hpage hname => ?_
    known := fun n X hX => (h.known n X hX).stable hchanges }, hchanges⟩
  · show g.page.or _ = _
    rw [h.page hw]
    rfl
  · rcases hold : g.page with - | old
    · -- a page of zeros has no line
      have hzeros : page = replicate pageSizeInBytes '\x00' := by
        have : g.page.or (some (replicate pageSizeInBytes '\x00')) = some page := hpage
        rw [hold] at this
        exact (some.inj this).symm
      obtain ⟨names, hparse, level, hlevel, hname⟩ := hname
      have hno : '\n' ∉ page := by
        rw [hzeros]
        exact fun hmem => absurd (eq_of_mem_replicate hmem) (by decide)
      rcases hmax : cfg.maxNumLevels with - | n
      · rw [hmax] at hparse
        obtain rfl := Except.ok.inj hparse
        exact absurd hlevel not_mem_nil
      · rw [hmax, parseManifestAndLoadSsts, if_neg hno] at hparse
        obtain rfl := Except.ok.inj hparse
        rw [eq_of_mem_replicate hlevel] at hname
        exact absurd hname not_mem_nil
    · refine h.named page name ?_ hname
      have : g.page.or (some (replicate pageSizeInBytes '\x00')) = some page := hpage
      rwa [hold] at this ⊢

theorem levelTree_length (cfg : SstManagerConfig) (levels : ℕ → List (Sst K)) :
    (levelTree cfg levels).length = cfg.maxNumLevels := by
  rw [levelTree, length_map, length_range]

theorem namedIn_serializeLevels {name : Text}
    (h : NamedIn cfg (serializeLevels Sst.filename (levelTree cfg levels)) name) :
    ∃ X, InLevels cfg levels X ∧ X.filename = name := by
  obtain ⟨names, hparse, level, hlevel, hname⟩ := h
  have hread : parseManifestAndLoadSsts .ok (levelTree cfg levels).length
      (serializeLevels Sst.filename (levelTree cfg levels)) =
        .ok ((keptLevels Sst.filename pageSizeInBytes (levelTree cfg levels)).map
          (·.map Sst.filename)) :=
    parse_serializeLevels _ (fun _ _ X _ => X.generatedName_filename) fun _ _ _ _ => rfl
  rw [levelTree_length, hparse] at hread
  obtain rfl := Except.ok.inj hread
  obtain ⟨ssts, hssts, rfl⟩ := mem_map.mp hlevel
  obtain ⟨X, hX, rfl⟩ := mem_map.mp hname
  have hmem := mem_keptLevels hssts hX
  obtain ⟨i, hi, rfl⟩ := mem_map.mp hmem
  exact ⟨X, ⟨i, mem_range.mp hi, hX⟩, rfl⟩

theorem write_ok {inputs : List (Sst K)} {snapGen : ℕ} {buf : Text} (h : SharedOk cfg p g)
    (hpc : TaskOk cfg p t g (.persist inputs started (.write buf snapGen))) :
    let g' := { g with
      page := some buf
      written := g.written ++ [snapGen]
      stateWriteMutex := none }
    SharedOk cfg p g' ∧ TaskOk cfg p t g' (.persist inputs started .sync) ∧
      Changes cfg p t g g' := by
  intro g'
  obtain ⟨hstarted, hgone, hmutex, hsnap, hle⟩ := hpc
  have hpageGen : g'.pageGen = snapGen := by
    show (g.written ++ [snapGen]).getLastD 0 = snapGen
    simp
  have hne : g'.written ≠ [] := append_ne_nil_of_right_ne_nil _ (cons_ne_nil _ _)
  have hchanges : Changes cfg p t g g' := by
    refine { Changes.refl cfg p t g with
      pageGen := hpageGen.symm ▸ hle
      written := fun _ => hne
      writeMutex := fun u hu hm => ?_ }
    exact absurd (some.inj (hm.symm.trans hmutex)) hu
  have hwritten_le : ∀ n ∈ g.written, n ≤ snapGen := fun n hn => (h.written_le n hn).trans hle
  refine ⟨{ h with
    sorted := ?_
    written_le := fun n hn => ?_
    pageGen_le := hpageGen.symm ▸ hsnap.le
    page := fun _ => ?_
    named := fun page name hpage hname => ?_
    files := fun n hn X hX => h.files n (hle.trans (hpageGen ▸ hn)) X hX
    known := fun n X hX => (h.known n X hX).stable hchanges
    settled := fun hs => ⟨hne, ?_⟩ }, ⟨hstarted, hgone.stable hchanges, hne, ?_⟩, hchanges⟩
  · refine pairwise_append.mpr ⟨h.sorted, pairwise_singleton .., fun n hn m hm => ?_⟩
    rw [mem_singleton.mp hm]
    exact hwritten_le n hn
  · rw [hpageGen]
    rcases mem_append.mp hn with hold | hnew
    · exact hwritten_le n hold
    · exact (mem_singleton.mp hnew).le
  · rw [hpageGen]
    exact congrArg some hsnap.buf
  · obtain rfl := some.inj hpage
    rw [hsnap.buf] at hname
    rw [hpageGen]
    exact namedIn_serializeLevels hname
  · rw [hpageGen]
    exact le_antisymm hsnap.le ((h.settled hs).2 ▸ hle)
  · rw [hpageGen]
    exact hsnap.started_le

theorem unlink_ok {rest : List (Sst K)} (h : SharedOk cfg p g)
    (hpc : TaskOk cfg p t g (.unlink (X :: rest))) :
    let g' := { g with files := g.files.filter (· ≠ X.filename) }
    SharedOk cfg p g' ∧ TaskOk cfg p t g' (.unlink rest) ∧ Changes cfg p t g g' := by
  intro g'
  obtain ⟨hknown, hgone⟩ := hpc X mem_cons_self
  have hother : ∀ Y : Sst K, Y.upperBound = p → Y.indexId ≠ X.indexId → Y.filename ∈ g.files →
      Y.filename ∈ g'.files := by
    intro Y hbound hne hY
    refine mem_filter.mpr ⟨hY, decide_eq_true fun heq => hne ?_⟩
    rw [Sst.filename, Sst.filename, hbound, hknown.upperBound] at heq
    exact sstFileName_injective p heq
  have hchanges : Changes cfg p t g g' := by
    refine { Changes.refl cfg p t g with files := fun u _ Y hbound hdrawn hY => ?_ }
    refine hother Y hbound (fun heq => ?_) hY
    rw [heq, hknown.drawnBy] at hdrawn
    exact nomatch hdrawn
  refine ⟨{ h with
    files := fun n hn Y hY => ?_
    known := fun n Y hY => (h.known n Y hY).stable hchanges },
    Gone.stable hchanges fun Y hY => hpc Y (mem_cons_of_mem _ hY), hchanges⟩
  exact hother Y (h.known n Y hY).upperBound (hgone n hn Y hY) (h.files n hn Y hY)

theorem persistStep_ok {ok : Bool} {inputs : List (Sst K)} {pc : PersistPc} {pc' : TaskPc K}
    (h : SharedOk cfg p g) (hpc : TaskOk cfg p t g (.persist inputs started pc))
    (hstep : persistStep cfg t ok inputs started g pc = some (g', pc')) :
    SharedOk cfg p g' ∧ TaskOk cfg p t g' pc' ∧ Changes cfg p t g g' := by
  have hrefl := Changes.refl cfg p t g
  obtain ⟨hstarted, hgone, hok⟩ := hpc
  cases pc with
  | snapshot =>
    rw [persistStep] at hstep
    split at hstep <;> cases hstep
    next hfree =>
    have hcurrent := h.current (isNone_iff_eq_none.mp hfree)
    exact ⟨h, ⟨hstarted, hgone, hstarted, le_rfl, by rw [hcurrent]⟩, hrefl⟩
  | lock buf snapGen =>
    rw [persistStep] at hstep
    split at hstep <;> cases hstep
    next hfree =>
    have hchanges : Changes cfg p t g { g with stateWriteMutex := some t } :=
      { hrefl with writeMutex := fun u _ hm => by rw [hm] at hfree; exact nomatch hfree }
    exact ⟨{ h with known := fun n X hX => (h.known n X hX).stable hchanges },
      ⟨hstarted, hgone.stable hchanges, rfl, SerializedOk.stable hchanges hok⟩, hchanges⟩
  | recheck buf snapGen =>
    rw [persistStep] at hstep
    split at hstep <;> cases hstep
    · exact ⟨h, ⟨hstarted, hgone, hok.1⟩, hrefl⟩
    · next hsame =>
      exact ⟨h, ⟨hstarted, hgone, hok.1, hok.2, not_not.mp hsame ▸ h.pageGen_le⟩, hrefl⟩
  | resnapshot =>
    rw [persistStep] at hstep
    split at hstep <;> cases hstep
    next hfree =>
    have hcurrent := h.current (isNone_iff_eq_none.mp hfree)
    exact ⟨h, ⟨hstarted, hgone, hok, ⟨hstarted, le_rfl, by rw [hcurrent]⟩, h.pageGen_le⟩, hrefl⟩
  | write buf snapGen =>
    rw [persistStep] at hstep
    split at hstep <;> cases hstep
    · exact write_ok h ⟨hstarted, hgone, hok⟩
    · have hchanges : Changes cfg p t g { g with stateWriteMutex := none } :=
        { hrefl with
          writeMutex := fun u hu hm => absurd (some.inj (hm.symm.trans hok.1)) hu }
      exact ⟨{ h with known := fun n X hX => (h.known n X hX).stable hchanges }, trivial, hchanges⟩
  | sync =>
    cases hstep
    cases ok
    · exact ⟨h, trivial, hrefl⟩
    · exact ⟨h, ⟨hstarted, hgone, hok⟩, hrefl⟩
  | syncDir =>
    rw [persistStep] at hstep
    split at hstep <;> cases hstep
    · have hchanges : Changes cfg p t g
          { g with settled := g.settled || started == g.levelsSeqNum } := { hrefl with }
      refine ⟨{ h with
        known := fun n X hX => (h.known n X hX).stable hchanges
        settled := fun hs => ?_ }, (hgone.stable hchanges).mono hok.2, hchanges⟩
      rcases Bool.or_eq_true_iff.mp hs with hold | hnow
      · exact h.settled hold
      · exact ⟨hok.1, le_antisymm h.pageGen_le (beq_iff_eq.mp hnow ▸ hok.2)⟩
    · exact ⟨h, trivial, hrefl⟩

theorem taskStep_ok {ok : Bool} {pc pc' : TaskPc K} (h : SharedOk cfg p g)
    (hpc : TaskOk cfg p t g pc) (hstep : taskStep cfg t ok g pc = some (g', pc')) :
    SharedOk cfg p g' ∧ TaskOk cfg p t g' pc' ∧ Changes cfg p t g g' := by
  have hrefl := Changes.refl cfg p t g
  cases pc with
  | idle => cases hstep
  | update u =>
    rw [taskStep] at hstep
    split at hstep <;> cases hstep
    next hfree => exact update_ok h hpc (isNone_iff_eq_none.mp hfree)
  | bump u =>
    cases hstep
    exact bump_ok h hpc
  | opening inputs =>
    rw [taskStep] at hstep
    split_ifs at hstep <;> cases hstep
    · exact ⟨h, ⟨le_rfl, hpc, trivial⟩, hrefl⟩
    · obtain ⟨hshared, hchanges⟩ := open_ok h
      exact ⟨hshared, ⟨le_rfl, Gone.stable hchanges hpc, trivial⟩, hchanges⟩
    · exact ⟨h, trivial, hrefl⟩
  | persist inputs started pc => exact persistStep_ok h hpc hstep
  | unlink inputs =>
    rcases inputs with - | ⟨X, rest⟩
    · cases hstep
      exact ⟨h, trivial, hrefl⟩
    · cases hstep
      cases ok
      · exact ⟨h, fun Y hY => hpc Y (mem_cons_of_mem _ hY), hrefl⟩
      · exact unlink_ok h hpc

/-- **Every action keeps what all tasks rely on.** -/
theorem taskAct_ok [DecidableEq K] {a : TaskAct K} {pc pc' : TaskPc K} (h : SharedOk cfg p g)
    (hpc : TaskOk cfg p t g pc) (hact : taskAct cfg p t a g pc = some (g', pc')) :
    SharedOk cfg p g' ∧ TaskOk cfg p t g' pc' ∧ Changes cfg p t g g' := by
  cases a with
  | run ok => exact taskStep_ok h hpc (by cases pc <;> exact hact)
  | persist =>
    cases pc <;> cases hact
    exact ⟨h, fun X hX => absurd hX not_mem_nil, Changes.refl cfg p t g⟩
  | flush sst =>
    cases pc with
    | idle =>
      obtain ⟨g₁, hdraw, heq⟩ := map_eq_some_iff.mp hact
      cases heq
      obtain ⟨hshared, hchanges, -, hsst⟩ := drawFile_ok h hdraw
      exact ⟨hshared, ⟨hsst, trivial⟩, hchanges⟩
    | _ => cases hact
  | compact level inputs output =>
    cases pc with
    | idle =>
      rw [taskAct] at hact
      split at hact
      · next hpick =>
        obtain ⟨-, hlevel, hpick⟩ := hpick
        obtain ⟨g₁, hdraw, heq⟩ := map_eq_some_iff.mp hact
        cases heq
        obtain ⟨hshared, hchanges, hlevels, hsst⟩ := drawFile_ok h hdraw
        refine ⟨hshared, ⟨hsst, fun X hX => ⟨?_, fun i hi Y hY heq => ?_⟩⟩, hchanges⟩
        · refine (h.known (g.levelsSeqNum + 1) X ⟨level, hlevel, ?_⟩).stable hchanges
          rw [g.levelsAt_of_lt (Nat.lt_succ_self _)]
          exact hpick X hX
        · rw [hlevels] at hY
          exact h.unique i hi level hlevel Y hY X (hpick X hX) heq
      · exact nomatch hact
    | _ => cases hact

/-! ### Whole runs -/

/-- A partition as the constructor or a load leaves it: its SSTs have files of their
own, and the page, if there is one, names some of them. -/
structure LoadedPartition (cfg : SstManagerConfig) (p : ℕ) (levels : ℕ → List (Sst K))
    (page : Option Text) (files : List Text) (flushIteration : ℕ) : Prop where
  known : ∀ X, InLevels cfg levels X →
    X.upperBound = p ∧ X.indexId < flushIteration ∧ X.filename ∈ files
  unique : ∀ i < cfg.maxNumLevels, ∀ j < cfg.maxNumLevels, ∀ X ∈ levels i, ∀ Y ∈ levels j,
    X.indexId = Y.indexId → i = j ∧ X = Y
  named : ∀ pg name, page = some pg → NamedIn cfg pg name →
    ∃ X, InLevels cfg levels X ∧ X.filename = name

/-- All tasks idle on such a partition. -/
def loadedState (ι : Type*) (levels : ℕ → List (Sst K)) (page : Option Text) (files : List Text)
    (flushIteration : ℕ) : State ι (ManifestState ι K) (TaskPc K) :=
  ⟨{ levels, page, files, flushIteration }, fun _ => .idle⟩

theorem LoadedPartition.sharedOk {page : Option Text} {files : List Text} {flushIteration : ℕ}
    (h : LoadedPartition cfg p levels page files flushIteration) :
    SharedOk cfg p (loadedState ι levels page files flushIteration).shared := by
  have hlevelsAt : ∀ n,
      (loadedState ι levels page files flushIteration).shared.levelsAt n = levels := fun n =>
    ite_self ..
  refine
    { current := fun _ => rfl
      sorted := .nil
      written_le := fun n hn => absurd hn not_mem_nil
      pageGen_le := le_rfl
      page := fun hne => absurd rfl hne
      named := h.named
      files := fun n _ X hX => ?_
      known := fun n X hX => ?_
      drawn_lt := fun i u hu => nomatch hu
      unique := h.unique
      settled := fun hs => nomatch hs }
  · rw [hlevelsAt] at hX
    exact (h.known X hX).2.2
  · rw [hlevelsAt] at hX
    exact ⟨(h.known X hX).1, (h.known X hX).2.1, rfl⟩

variable [DecidableEq ι] [DecidableEq K]

end Invariant

/-- A flush and a compaction of its SST: the first call takes its snapshot, the compaction
commits before the write lock is taken, and the call has to take a second one. -/
def exampleTasks : List (Label Bool (TaskAct ℕ) Empty) :=
  let go := fun t => Label.thread t (.run true)
  let flushed : Sst ℕ :=
    { id := 0, indexId := 0, epoch := 0, upperBound := 65535, maxSeqNr := 0, entries := [] }
  let merged : Sst ℕ :=
    { id := 1, indexId := 1, epoch := 0, upperBound := 65535, maxSeqNr := 0, entries := [] }
  [.thread false (.flush flushed), go false, go false, go false, go false,
    .thread true (.compact 0 [flushed] merged), go true, go true,
    go false, go false, go false, go false,
    go true, go true, go true, go true, go true, go true, go true, go true]

end HedgeDB
