/-
HedgeDB/SstNames.lean

Epochs and file names across restarts (`_flush_iteration` of `src/db/sst_manager.h`,
`_make_compaction_task` of `src/db/sst_manager.cc`, `_flush` of `src/db/memtable.cc`,
`src/db/sst_manager_loader.cc`).

One counter gives a flush its epoch, which is also the number in the names of its files,
and a merge the number in the name of its file.  A merged file has the epoch of one of its
inputs.  A load sets the counter behind the largest number in the names it finds in the
manifests.

The inputs of a merge are unlinked when the output, which has a larger number, is
committed.  So of all files that were ever created the one with the largest number is
still there (`NamesInv.kept`), and `_check_orphans` refuses a database in which a manifest
does not name it: the counter never falls behind a number that was used.
-/
import HedgeDB.FlushFiles
import HedgeDB.ManifestWrites

namespace HedgeDB

open List Function Option

variable {K : Type*} [LinearOrder K]

/-! ### The files of the partitions -/

/-- `open_mode::read_write_new` below a directory that is created with it. -/
def createFile (fs : PartitionsPath K) (X : Sst K) : Option (PartitionsPath K) :=
  let dir := (fs (dirName X.upperBound)).getD {}
  if ∃ Y ∈ dir.files, Y.filename = X.filename then none
  else some (update fs (dirName X.upperBound) (some { dir with files := dir.files ++ [X] }))

def createFiles : PartitionsPath K → List (Sst K) → Option (PartitionsPath K)
  | fs, [] => some fs
  | fs, X :: ssts => (createFile fs X).bind fun fs => createFiles fs ssts

/-- `unlink(path)`. -/
def unlinkFile (fs : PartitionsPath K) (X : Sst K) : PartitionsPath K :=
  match fs (dirName X.upperBound) with
  | none => fs
  | some dir =>
      update fs (dirName X.upperBound)
        (some { dir with files := dir.files.filter fun Y => Y.filename ≠ X.filename })

/-- The part of the configuration that a commit reads. -/
def FilesConfig.toManager (cfg : FilesConfig) : SstManagerConfig :=
  { maxNumLevels := cfg.maxNumLevels }

/-! ### The machine -/

/-- A flush that has drawn its epoch, written its files; a merge that has drawn its number,
written its file, committed. -/
inductive NamesTask (K : Type*)
  | flush (epoch : ℕ) (entries : List (MemtableEntry K))
  | flushed (ssts : List (Sst K))
  | merge (newIndexId level : ℕ) (inputs : List (Sst K)) (discardDeletedKeys : Bool)
  | merged (level : ℕ) (inputs : List (Sst K)) (output : Sst K)
  | committed (p : ℕ) (inputs : List (Sst K))
  | done

/-- The number a task has drawn and not used yet. -/
def NamesTask.number : NamesTask K → Option ℕ
  | flush epoch _ => some epoch
  | merge newIndexId _ _ _ => some newIndexId
  | _ => none

def NamesTask.isDone : NamesTask K → Bool
  | done => true
  | _ => false

/-- The manager, its tasks, and what stands below `partitions_path`, if that exists.
`created` only records every SST that was ever written. -/
structure NamesState (K : Type*) where
  disk : Option (PartitionsPath K) := none
  levels : ℕ → ℕ → List (Sst K) := fun _ _ => []
  flushIteration : ℕ := 0
  tasks : List (NamesTask K) := []
  created : List (Sst K) := []

inductive NamesAct (K : Type*)
  | startFlush (entries : List (MemtableEntry K))
  | startMerge (p level : ℕ) (inputs : List (Sst K)) (discardDeletedKeys : Bool)
  | run (i fileId : ℕ)
  | fail (i fileId : ℕ) (written : Sst K → Bool)
  | persist (p : ℕ)
  | reopen

namespace NamesState

variable (cfg : FilesConfig) (io : MergeIo K) (part : K → ℕ) (s : NamesState K)

def fs : PartitionsPath K := s.disk.getD fun _ => none

def setTask (i : ℕ) (task : NamesTask K) : NamesState K := { s with tasks := s.tasks.set i task }

/-- The SSTs in `ssts` are written; `fs` is what stands on disk then. -/
def create (fs : PartitionsPath K) (ssts : List (Sst K)) : NamesState K :=
  { s with disk := some fs, created := s.created ++ ssts }

def pushNewSstsToL0 (ssts : List (Sst K)) : ℕ → ℕ → List (Sst K) := fun p =>
  update (s.levels p) 0 (s.levels p 0 ++ ssts.filter fun X => X.upperBound = p)

/-- `_persist_partition_state`. -/
def persist (p : ℕ) : Expected (PartitionsPath K) :=
  persistPartitionState cfg s.fs p (levelTree cfg.toManager (s.levels p))

/-- The next action of a task that succeeds as far as it can. -/
def runTask (i fileId : ℕ) : NamesTask K → NamesState K
  | .flush epoch entries =>
      match flushMemtable part fileId epoch entries with
      | .error _ => s.setTask i .done
      | .ok ssts =>
          match createFiles s.fs ssts with
          | none => s.setTask i .done
          | some fs => (s.create fs ssts).setTask i (.flushed ssts)
  | .flushed ssts => { s with levels := s.pushNewSstsToL0 ssts }.setTask i .done
  | .merge newIndexId level inputs discardDeletedKeys =>
      match kWayMergeAsync2 io { newIndexId, discardDeletedKeys } fileId inputs with
      | .error _ => s.setTask i .done
      | .ok out =>
          match createFile s.fs out.sst with
          | none => s.setTask i .done
          | some fs => (s.create fs [out.sst]).setTask i (.merged level inputs out.sst)
  -- the partition is that of the first input, which is the one in the footer
  | .merged level inputs output =>
      let p := output.upperBound
      { s with
        levels := update s.levels p
          (PartitionState.replaceInputs cfg.toManager (s.levels p) level inputs output) }.setTask i
        (.committed p inputs)
  | .committed p inputs =>
      match s.persist cfg p with
      | .error _ => s.setTask i .done
      | .ok fs => { s with disk := s.disk.map fun _ => inputs.foldl unlinkFile fs }.setTask i .done
  | .done => s

/-- A task that fails.  The files it has written stay: any of those of a flush, which are
exported in parallel, or the one of a merge.  A commit whose persist call fails keeps its
inputs. -/
def failTask (i fileId : ℕ) (written : Sst K → Bool) : NamesTask K → NamesState K
  | .flush epoch entries =>
      match flushMemtable part fileId epoch entries with
      | .error _ => s.setTask i .done
      | .ok ssts =>
          match createFiles s.fs (ssts.filter written) with
          | none => s.setTask i .done
          | some fs => (s.create fs (ssts.filter written)).setTask i .done
  | _ => s.setTask i .done

/-- The levels of a loaded manager. -/
def levelsOf (mgr : LoadedManager K) : ℕ → ℕ → List (Sst K) := fun p i =>
  ((mgr.sortedIndices.find? fun q => q.1 = p).map fun q => q.2.getD i []).getD []

end NamesState

open NamesState in
/-- One step.  The database is closed when no task is left, and opened again by
`sst_manager::load`. -/
def namesStep (cfg : FilesConfig) (io : MergeIo K) (part : K → ℕ) (s : NamesState K) :
    NamesAct K → Option (NamesState K)
  | .startFlush entries =>
      some { s with
        flushIteration := s.flushIteration + 1
        tasks := s.tasks ++ [.flush s.flushIteration entries] }
  | .startMerge p level inputs discardDeletedKeys =>
      if ∀ X ∈ inputs, X ∈ s.levels p level then
        some { s with
          flushIteration := s.flushIteration + 1
          tasks := s.tasks ++ [.merge s.flushIteration level inputs discardDeletedKeys] }
      else none
  | .run i fileId => s.tasks[i]?.map (s.runTask cfg io part i fileId)
  | .fail i fileId written => s.tasks[i]?.map (s.failTask part i fileId written)
  | .persist p =>
      match s.persist cfg p with
      | .error _ => some s
      | .ok fs => some { s with disk := s.disk.map fun _ => fs }
  | .reopen =>
      if s.tasks.all NamesTask.isDone then
        match sstManagerLoad cfg s.disk with
        | .error _ => none
        | .ok mgr =>
            some { s with
              levels := levelsOf mgr
              flushIteration := mgr.flushIteration
              tasks := [] }
      else none

/-- The number that a step draws: the epoch of a new flush, the id of a merged file. -/
def drawn (s : NamesState K) : NamesAct K → Option ℕ
  | .startFlush _ | .startMerge _ _ _ _ => some s.flushIteration
  | _ => none

/-! ### What a load finds -/

variable {mgr : LoadedManager K} {levels : LevelTree K} {i n p : ℕ} {X : Sst K}
  {disk : Option (PartitionsPath K)}

section Load

variable {cfg : FilesConfig} {fs : PartitionsPath K}

theorem exists_load_of_loadNames {α : Type*} {load : Text → Expected α} {names : List Text}
    {ssts : List α} (h : loadNames load names = .ok ssts) : ∀ X ∈ ssts, ∃ name, load name = .ok X := by
  induction names generalizing ssts with
  | nil =>
    cases h
    simp
  | cons name names ih =>
    rw [loadNames] at h
    split at h
    · exact ih h
    · rcases hload : load name with e | X
      · rw [hload] at h
        cases h
      · rcases hrest : loadNames load names with e | rest
        · rw [hload, hrest] at h
          cases h
        · rw [hload, hrest] at h
          cases h
          intro Y hY
          rcases mem_cons.mp hY with rfl | hY
          · exact ⟨name, hload⟩
          · exact ih hrest Y hY

theorem exists_load_of_parse {α : Type*} {load : Text → Expected α} {content : Text}
    {levels : List (List α)} (h : parseManifestAndLoadSsts load n content = .ok levels) :
    ∀ X ∈ levels.flatten, ∃ name, load name = .ok X := by
  induction n generalizing content levels with
  | zero =>
    cases h
    simp
  | succ n ih =>
    rw [parseManifestAndLoadSsts] at h
    split at h
    · rcases hline : loadLine load (content.takeWhile (· ≠ '\n')) with e | level
      · simp only [hline] at h
        cases h
      · rcases hrest : parseManifestAndLoadSsts load n
          (content.drop ((content.takeWhile (· ≠ '\n')).length + 1)) with e | rest
        · simp only [hline, hrest] at h
          cases h
        · simp only [hline, hrest] at h
          cases h
          intro X hX
          rw [flatten_cons] at hX
          rcases mem_append.mp hX with hX | hX
          · rw [loadLine] at hline
            split at hline
            · cases hline
              cases hX
            · exact exists_load_of_loadNames hline X hX
          · exact ih hrest X hX
    · cases h
      intro X hX
      simp at hX

omit [LinearOrder K] in
theorem mem_of_sstLoad {dirPath : String} {dir : Directory K} {name : Text}
    (h : sstLoad dirPath dir name = .ok X) : X ∈ dir.files := by
  rw [sstLoad] at h
  split at h
  · next Y hY =>
    cases h
    exact mem_of_find?_eq_some hY
  · cases h

omit [LinearOrder K] in
theorem indexId_eq_of_filename {Y : Sst K} (h : X.filename = Y.filename) :
    X.indexId = Y.indexId := by
  have hX := flushIterationFromFilename_eq X
  rw [h, flushIterationFromFilename_eq Y] at hX
  exact (Except.ok.inj hX).symm

variable {it' it : ℕ}

section

omit [LinearOrder K]

theorem loadLevels_spec {dirPath : String} {dir : Directory K}
    (h : loadLevels cfg dirPath dir it = .ok (levels, it')) :
    it ≤ it' ∧ ∀ X ∈ levels.flatten, X.indexId ≤ it' ∧ X ∈ dir.files := by
  have hempty : ∀ X ∈ (replicate cfg.maxNumLevels ([] : List (Sst K))).flatten,
      X.indexId ≤ it ∧ X ∈ dir.files := by simp
  rw [loadLevels] at h
  split at h
  · cases h
    exact ⟨le_rfl, hempty⟩
  · split at h
    · cases h
      exact ⟨le_rfl, hempty⟩
    · next page _ levels' hparse =>
      rw [maxFlushIteration_eq] at h
      cases h
      obtain ⟨hle, hids⟩ := KeyedList.le_foldl_max (f := Sst.indexId) levels.flatten it
      refine ⟨hle, fun X hX => ⟨hids X hX, ?_⟩⟩
      obtain ⟨name, hname⟩ := exists_load_of_parse hparse X hX
      exact mem_of_sstLoad hname

theorem loadPartition_spec (h : loadPartition cfg fs p it = .ok (levels, it')) :
    it ≤ it' ∧
      (∀ X ∈ levels.flatten, X.indexId ≤ it' ∧
        ∃ dir, fs (dirName p) = some dir ∧ X ∈ dir.files) ∧
      ∀ dir, fs (dirName p) = some dir → ∀ X ∈ dir.files, X.indexId ≤ it' := by
  rw [loadPartition] at h
  split at h
  · next hdir =>
    cases h
    refine ⟨le_rfl, by simp, fun dir hdir' => ?_⟩
    rw [hdir] at hdir'
    cases hdir'
  · next dir hdir =>
    split at h
    · cases h
    · next levels' it₁ hlevels =>
      split at h
      · cases h
      · next hcheck =>
        cases h
        obtain ⟨hle, hloaded⟩ := loadLevels_spec hlevels
        refine ⟨hle, fun X hX => ⟨(hloaded X hX).1, dir, hdir, (hloaded X hX).2⟩, ?_⟩
        intro dir' hdir' X hX
        rw [hdir] at hdir'
        cases hdir'
        have htracked := checkOrphans_eq_ok_iff.mp hcheck X hX (stem_filename_ne X)
        obtain ⟨Y, hY, hname⟩ := mem_map.mp htracked
        exact indexId_eq_of_filename hname ▸ (hloaded Y hY).1

theorem loadPartitionsFrom_spec {ps : List ℕ} {partitions : List (ℕ × LevelTree K)}
    (h : loadPartitionsFrom cfg fs ps it = .ok (partitions, it')) :
    it ≤ it' ∧
      (∀ q ∈ partitions, ∀ X ∈ q.2.flatten, X.indexId ≤ it' ∧
        ∃ d dir, fs d = some dir ∧ X ∈ dir.files) ∧
      ∀ p ∈ ps, ∀ dir, fs (dirName p) = some dir → ∀ X ∈ dir.files, X.indexId ≤ it' := by
  induction ps generalizing it partitions with
  | nil =>
    cases h
    simp
  | cons p ps ih =>
    rw [loadPartitionsFrom] at h
    split at h
    · cases h
    · next levels it₁ hp =>
      rcases hrest : loadPartitionsFrom cfg fs ps it₁ with e | ⟨rest, it₂⟩
      · simp only [hrest] at h
        cases h
      · simp only [hrest] at h
        cases h
        obtain ⟨hle, hloaded, hfiles⟩ := loadPartition_spec hp
        obtain ⟨hle', hloaded', hfiles'⟩ := ih hrest
        refine ⟨hle.trans hle', fun q hq X hX => ?_, fun q hq dir hdir X hX => ?_⟩
        · rcases mem_cons.mp hq with rfl | hq
          · obtain ⟨hid, dir, hdir, hmem⟩ := hloaded X hX
            exact ⟨hid.trans hle', _, dir, hdir, hmem⟩
          · exact hloaded' q hq X hX
        · rcases mem_cons.mp hq with rfl | hq
          · exact (hfiles dir hdir X hX).trans hle'
          · exact hfiles' q hq dir hdir X hX

theorem mem_levelsOf (h : X ∈ NamesState.levelsOf mgr p i) :
    ∃ q ∈ mgr.sortedIndices, X ∈ q.2.flatten := by
  rw [NamesState.levelsOf] at h
  rcases hfind : mgr.sortedIndices.find? (fun q => q.1 = p) with - | q
  · rw [hfind] at h
    cases h
  · rw [hfind, map_some, getD_some, getD_eq_getElem?_getD] at h
    rcases hlevel : q.2[i]? with - | level
    · rw [hlevel] at h
      cases h
    · rw [hlevel] at h
      exact ⟨q, mem_of_find?_eq_some hfind,
        mem_flatten.mpr ⟨level, mem_of_getElem? hlevel, h⟩⟩

/-- **The counter after a load** is behind the numbers of all files of the partitions, and
what is loaded are such files. -/
theorem sstManagerLoad_spec (h : sstManagerLoad cfg disk = .ok mgr) :
    (∀ p i, ∀ X ∈ NamesState.levelsOf mgr p i,
        ∃ d dir, (disk.getD fun _ => none) d = some dir ∧ X ∈ dir.files) ∧
      ∀ p ∈ partitionIds cfg.numPartitionExponent, ∀ dir,
        (disk.getD fun _ => none) (dirName p) = some dir →
          ∀ X ∈ dir.files, X.indexId < mgr.flushIteration := by
  unfold sstManagerLoad at h
  rcases disk with - | fs
  · -- nothing exists yet
    cases h
    refine ⟨fun p i X hX => ?_, by simp⟩
    obtain ⟨q, hq, hX⟩ := mem_levelsOf hX
    obtain ⟨p', -, rfl⟩ := mem_map.mp hq
    simp at hX
  · rcases hparts : loadPartitionsFrom cfg fs (partitionIds cfg.numPartitionExponent) 0
      with e | ⟨partitions, it⟩
    · simp only [hparts] at h
      cases h
    · simp only [hparts] at h
      cases h
      obtain ⟨-, hloaded, hfiles⟩ := loadPartitionsFrom_spec hparts
      refine ⟨fun p i X hX => ?_, fun p hp dir hdir X hX => ?_⟩
      · obtain ⟨q, hq, hX⟩ := mem_levelsOf hX
        exact (hloaded q hq X hX).2
      · exact Nat.lt_succ_of_le (hfiles p hp dir hdir X hX)

end

end Load

/-! ### The invariant -/

variable {ssts : List (Sst K)} {task : NamesTask K}

section Invariant

variable {cfg : FilesConfig} {io : MergeIo K} {part : K → ℕ} {s s' : NamesState K}

/-- The file of `X` is there. -/
def Stores (fs : PartitionsPath K) (X : Sst K) : Prop :=
  ∃ dir, fs (dirName X.upperBound) = some dir ∧ X ∈ dir.files

/-- A file has a larger number than `X`. -/
def Surpassed (created : List (Sst K)) (X : Sst K) : Prop := ∃ Y ∈ created, X.indexId < Y.indexId

/-- A number that was drawn, and that no file has. -/
structure FreshNumber (s : NamesState K) (n : ℕ) : Prop where
  lt : n < s.flushIteration
  ne : ∀ X ∈ s.created, X.indexId ≠ n

def NamesTaskOk (s : NamesState K) : NamesTask K → Prop
  | .flush epoch _ => FreshNumber s epoch
  | .flushed ssts => ∀ X ∈ ssts, X ∈ s.created
  | .merge newIndexId _ inputs _ =>
      FreshNumber s newIndexId ∧ ∀ X ∈ inputs, X ∈ s.created ∧ X.indexId < newIndexId
  | .merged _ inputs output =>
      output ∈ s.created ∧ ∀ X ∈ inputs, X.indexId < output.indexId
  | .committed _ inputs => ∀ X ∈ inputs, Surpassed s.created X
  | .done => True

structure NamesInv (cfg : FilesConfig) (s : NamesState K) : Prop where
  epoch_le : ∀ X ∈ s.created, X.epoch ≤ X.indexId
  id_lt : ∀ X ∈ s.created, X.indexId < s.flushIteration
  owner : ∀ X ∈ s.created, X.upperBound ∈ partitionIds cfg.numPartitionExponent
  names : s.created.Pairwise fun X Y => X.upperBound = Y.upperBound → X.filename ≠ Y.filename
  levels : ∀ p i, ∀ X ∈ s.levels p i, X ∈ s.created
  files : ∀ d dir, s.fs d = some dir → ∀ X ∈ dir.files, X ∈ s.created
  kept : ∀ X ∈ s.created, Stores s.fs X ∨ Surpassed s.created X
  tasks : ∀ task ∈ s.tasks, NamesTaskOk s task
  numbers : ∀ (i j : ℕ) (t u : NamesTask K) (n : ℕ), s.tasks[i]? = some t → s.tasks[j]? = some u → t.number = some n →
    u.number = some n → i = j

omit [LinearOrder K]

theorem namesInv_initial : NamesInv cfg ({} : NamesState K) where
  epoch_le := by simp
  id_lt := by simp
  owner := by simp
  names := Pairwise.nil
  levels := by simp
  files := by simp [NamesState.fs]
  kept := by simp
  tasks := by simp
  numbers := by simp

theorem NamesTaskOk.mono (h : NamesTaskOk s task) (hsub : ∀ X ∈ s.created, X ∈ s'.created)
    (hle : s.flushIteration ≤ s'.flushIteration)
    (hne : ∀ n, task.number = some n → ∀ X ∈ s'.created, X ∈ s.created ∨ X.indexId ≠ n) :
    NamesTaskOk s' task := by
  have hfresh : ∀ n, task.number = some n → FreshNumber s n → FreshNumber s' n := by
    intro n hn hfresh
    refine ⟨hfresh.lt.trans_le hle, fun X hX => ?_⟩
    rcases hne n hn X hX with hold | hnew
    · exact hfresh.ne X hold
    · exact hnew
  cases task with
  | flush epoch entries => exact hfresh epoch rfl h
  | flushed ssts => exact fun X hX => hsub X (h X hX)
  | merge newIndexId level inputs discardDeletedKeys =>
    exact ⟨hfresh newIndexId rfl h.1, fun X hX => ⟨hsub X (h.2 X hX).1, (h.2 X hX).2⟩⟩
  | merged level inputs output => exact ⟨hsub output h.1, h.2⟩
  | committed p inputs =>
    intro X hX
    obtain ⟨Y, hY, hlt⟩ := h X hX
    exact ⟨Y, hsub Y hY, hlt⟩
  | done => trivial

namespace NamesInv

theorem start (h : NamesInv cfg s) (hnumber : task.number = some s.flushIteration)
    (htask : NamesTaskOk { s with flushIteration := s.flushIteration + 1 } task) :
    NamesInv cfg { s with
      flushIteration := s.flushIteration + 1
      tasks := s.tasks ++ [task] } := by
  have hsmaller : ∀ (i : ℕ) (t : NamesTask K), s.tasks[i]? = some t →
      t.number ≠ some s.flushIteration := by
    intro i t hi hn
    have hok := h.tasks t (mem_of_getElem? hi)
    cases t with
    | flush epoch entries =>
      cases hn
      exact hok.lt.ne rfl
    | merge newIndexId level inputs discardDeletedKeys =>
      cases hn
      exact hok.1.lt.ne rfl
    | flushed | merged | committed | done => cases hn
  refine { h with id_lt := ?_, tasks := ?_, numbers := ?_ }
  · exact fun X hX => Nat.lt_succ_of_lt (h.id_lt X hX)
  · intro t ht
    rcases mem_append.mp ht with ht | ht
    · exact (h.tasks t ht).mono (fun X hX => hX) (Nat.le_succ _) fun n hn X hX => .inl hX
    · obtain rfl := mem_singleton.mp ht
      exact htask.mono (fun X hX => hX) le_rfl fun n hn X hX => .inl hX
  · have hcases : ∀ (i : ℕ) (t : NamesTask K), (s.tasks ++ [task])[i]? = some t →
        s.tasks[i]? = some t ∨ i = s.tasks.length ∧ t = task := by
      intro i t hi
      rw [getElem?_append] at hi
      split at hi
      · exact .inl hi
      · rw [getElem?_singleton] at hi
        split at hi
        · cases hi
          exact .inr ⟨by omega, rfl⟩
        · cases hi
    intro i j t u n hi hj ht hu
    rcases hcases i t hi with hi' | ⟨rfl, rfl⟩ <;> rcases hcases j u hj with hj' | ⟨rfl, rfl⟩
    · exact h.numbers i j t u n hi' hj' ht hu
    · exact absurd (ht.trans (hu.symm.trans hnumber)) (hsmaller i t hi')
    · exact absurd (hu.trans (ht.symm.trans hnumber)) (hsmaller j u hj')
    · rfl

theorem setTask (h : NamesInv cfg s) (i : ℕ) (hnumber : task.number = none)
    (htask : NamesTaskOk s task) : NamesInv cfg (s.setTask i task) := by
  refine { h with tasks := ?_, numbers := ?_ }
  · intro t ht
    have hmono : ∀ {t}, NamesTaskOk s t → NamesTaskOk (s.setTask i task) t := fun ht =>
      ht.mono (fun X hX => hX) le_rfl fun n hn X hX => .inl hX
    rcases mem_or_eq_of_mem_set ht with ht | rfl
    · exact hmono (h.tasks t ht)
    · exact hmono htask
  · have hcases : ∀ (j n : ℕ) (t : NamesTask K), (s.tasks.set i task)[j]? = some t →
        t.number = some n → s.tasks[j]? = some t := by
      intro j n t hj hn
      rw [getElem?_set] at hj
      split at hj
      · split at hj
        · cases hj
          rw [hnumber] at hn
          cases hn
        · cases hj
      · exact hj
    intro j k t u n hj hk ht hu
    exact h.numbers j k t u n (hcases j n t hj ht) (hcases k n u hk hu) ht hu

theorem number_ne (h : NamesInv cfg s) (hi : s.tasks[i]? = some task)
    (hnumber : task.number = some n) : ∀ t ∈ (s.setTask i .done).tasks, t.number ≠ some n := by
  intro t ht hn
  obtain ⟨j, hj⟩ := mem_iff_getElem?.mp ht
  have hset : (s.tasks.set i .done)[j]? = some t := hj
  rw [getElem?_set] at hset
  split at hset
  · split at hset
    · cases hset
      cases hn
    · cases hset
  · next hne => exact hne (h.numbers i j task t n hi hset hnumber hn)

theorem create (h : NamesInv cfg s) {fs : PartitionsPath K}
    (hnone : ∀ t ∈ s.tasks, t.number ≠ some n) (hfresh : FreshNumber s n)
    (hid : ∀ X ∈ ssts, X.indexId = n) (hepoch : ∀ X ∈ ssts, X.epoch ≤ n)
    (howner : ∀ X ∈ ssts, X.upperBound ∈ partitionIds cfg.numPartitionExponent)
    (hparts : ssts.Pairwise fun X Y => X.upperBound ≠ Y.upperBound)
    (hstores : ∀ X, Stores s.fs X ∨ X ∈ ssts → Stores fs X)
    (hfiles : ∀ d dir, fs d = some dir → ∀ X ∈ dir.files,
      X ∈ ssts ∨ ∃ dir, s.fs d = some dir ∧ X ∈ dir.files) :
    NamesInv cfg (s.create fs ssts) where
  epoch_le := by
    intro X hX
    rcases mem_append.mp hX with hX | hX
    · exact h.epoch_le X hX
    · exact hid X hX ▸ hepoch X hX
  id_lt := by
    intro X hX
    rcases mem_append.mp hX with hX | hX
    · exact h.id_lt X hX
    · exact hid X hX ▸ hfresh.lt
  owner := by
    intro X hX
    rcases mem_append.mp hX with hX | hX
    · exact h.owner X hX
    · exact howner X hX
  names := by
    refine pairwise_append.mpr ⟨h.names, hparts.imp fun hne heq => absurd heq hne, ?_⟩
    rintro X hX Y hY - hname
    -- an old file has another number
    exact hfresh.ne X hX ((indexId_eq_of_filename hname).trans (hid Y hY))
  levels := fun p i X hX => mem_append_left _ (h.levels p i X hX)
  files := by
    intro d dir hdir X hX
    rcases hfiles d dir hdir X hX with hnew | ⟨dir', hdir', hold⟩
    · exact mem_append_right _ hnew
    · exact mem_append_left _ (h.files d dir' hdir' X hold)
  kept := by
    intro X hX
    rcases mem_append.mp hX with hX | hX
    · rcases h.kept X hX with hstored | ⟨Y, hY, hlt⟩
      · exact .inl (hstores X (.inl hstored))
      · exact .inr ⟨Y, mem_append_left _ hY, hlt⟩
    · exact .inl (hstores X (.inr hX))
  tasks := by
    intro t ht
    refine (h.tasks t ht).mono (fun X hX => mem_append_left _ hX) le_rfl fun m hm X hX => ?_
    rcases mem_append.mp hX with hX | hX
    · exact .inl hX
    · refine .inr fun heq => hnone t ht ?_
      rw [hm, ← heq, hid X hX]
  numbers := h.numbers

end NamesInv

end Invariant

/-! ### What happens to the files -/

section Files

variable {cfg : FilesConfig} {fs fs' : PartitionsPath K}

omit [LinearOrder K]

/-- The files of `fs'` are those of `fs` and `ssts`. -/
structure Adds (fs fs' : PartitionsPath K) (ssts : List (Sst K)) : Prop where
  stores : ∀ X, Stores fs X ∨ X ∈ ssts → Stores fs' X
  files : ∀ d dir, fs' d = some dir → ∀ X ∈ dir.files,
    X ∈ ssts ∨ ∃ dir, fs d = some dir ∧ X ∈ dir.files

theorem Adds.trans {fs'' : PartitionsPath K} {ssts' : List (Sst K)} (h : Adds fs fs' ssts)
    (h' : Adds fs' fs'' ssts') : Adds fs fs'' (ssts ++ ssts') where
  stores := by
    intro X hX
    refine h'.stores X ?_
    rcases hX with hX | hX
    · exact .inl (h.stores X (.inl hX))
    · rcases mem_append.mp hX with hX | hX
      · exact .inl (h.stores X (.inr hX))
      · exact .inr hX
  files := by
    intro d dir hdir X hX
    rcases h'.files d dir hdir X hX with hnew | ⟨dir', hdir', hX'⟩
    · exact .inl (mem_append_right _ hnew)
    · rcases h.files d dir' hdir' X hX' with hnew | hold
      · exact .inl (mem_append_left _ hnew)
      · exact .inr hold

theorem createFile_adds (h : createFile fs X = some fs') : Adds fs fs' [X] := by
  unfold createFile at h
  dsimp only at h
  split at h
  · cases h
  · cases h
    refine ⟨fun Y hY => ?_, fun d dir hdir Y hY => ?_⟩
    · by_cases hd : dirName Y.upperBound = dirName X.upperBound
      · refine ⟨_, by rw [hd, update_self], ?_⟩
        rcases hY with ⟨dir, hdir, hmem⟩ | hY
        · rw [← hd, hdir]
          exact mem_append_left _ hmem
        · exact mem_append_right _ hY
      · rcases hY with ⟨dir, hdir, hmem⟩ | hY
        · exact ⟨dir, by rw [update_of_ne hd, hdir], hmem⟩
        · exact absurd (congrArg (dirName ∘ Sst.upperBound) (mem_singleton.mp hY)) hd
    · rw [update_apply] at hdir
      split at hdir
      · next hd =>
        cases hdir
        rcases mem_append.mp hY with hY | hY
        · rcases hold : fs (dirName X.upperBound) with - | dir₀
          · rw [hold] at hY
            cases hY
          · rw [hold] at hY
            exact .inr ⟨dir₀, by rw [hd, hold], hY⟩
        · exact .inl hY
      · exact .inr ⟨dir, hdir, hY⟩

theorem createFiles_adds (h : createFiles fs ssts = some fs') : Adds fs fs' ssts := by
  induction ssts generalizing fs with
  | nil =>
    cases h
    exact ⟨fun X hX => hX.resolve_right not_mem_nil, fun d dir hdir X hX =>
      .inr ⟨dir, hdir, hX⟩⟩
  | cons X ssts ih =>
    obtain ⟨fs₁, h₁, hrest⟩ := bind_eq_some_iff.mp h
    exact (createFile_adds h₁).trans (ih hrest)

/-- The files of `fs'` are those of `fs` but for some with the name of one of `ssts`. -/
structure Removes (fs fs' : PartitionsPath K) (ssts : List (Sst K)) : Prop where
  stores : ∀ X, Stores fs X → Stores fs' X ∨ ∃ Y ∈ ssts, X.filename = Y.filename
  files : ∀ d dir, fs' d = some dir → ∀ X ∈ dir.files, ∃ dir, fs d = some dir ∧ X ∈ dir.files

theorem Removes.trans {fs'' : PartitionsPath K} {ssts' : List (Sst K)} (h : Removes fs fs' ssts)
    (h' : Removes fs' fs'' ssts') : Removes fs fs'' (ssts ++ ssts') where
  stores := by
    intro X hX
    rcases h.stores X hX with hX' | ⟨Y, hY, hname⟩
    · rcases h'.stores X hX' with hX'' | ⟨Y, hY, hname⟩
      · exact .inl hX''
      · exact .inr ⟨Y, mem_append_right _ hY, hname⟩
    · exact .inr ⟨Y, mem_append_left _ hY, hname⟩
  files := by
    intro d dir hdir X hX
    obtain ⟨dir', hdir', hX'⟩ := h'.files d dir hdir X hX
    exact h.files d dir' hdir' X hX'

theorem removes_refl : Removes fs fs [] :=
  ⟨fun _ hX => .inl hX, fun _ dir hdir _ hX => ⟨dir, hdir, hX⟩⟩

theorem removes_update {d : String} {dir₀ dir' : Directory K} (hdir₀ : fs d = some dir₀)
    (hsub : ∀ X ∈ dir'.files, X ∈ dir₀.files)
    (hkeep : ∀ X ∈ dir₀.files, X ∈ dir'.files ∨ ∃ Y ∈ ssts, X.filename = Y.filename) :
    Removes fs (update fs d (some dir')) ssts := by
  refine ⟨fun X hX => ?_, fun e dir hdir X hX => ?_⟩
  · obtain ⟨dir, hdir, hmem⟩ := hX
    by_cases hd : dirName X.upperBound = d
    · rw [hd, hdir₀] at hdir
      cases hdir
      rcases hkeep X hmem with hmem' | hgone
      · exact .inl ⟨dir', by rw [hd, update_self], hmem'⟩
      · exact .inr hgone
    · exact .inl ⟨dir, by rw [update_of_ne hd, hdir], hmem⟩
  · rw [update_apply] at hdir
    split at hdir
    · next hd =>
      cases hdir
      exact ⟨dir₀, by rw [hd, hdir₀], hsub X hX⟩
    · exact ⟨dir, hdir, hX⟩

theorem unlinkFile_removes (X : Sst K) : Removes fs (unlinkFile fs X) [X] := by
  unfold unlinkFile
  split
  · exact ⟨fun Y hY => .inl hY, removes_refl.files⟩
  · next dir₀ hdir₀ =>
    refine removes_update hdir₀ (fun Y hY => (mem_filter.mp hY).1) fun Y hY => ?_
    by_cases hname : Y.filename = X.filename
    · exact .inr ⟨X, mem_singleton_self X, hname⟩
    · exact .inl (mem_filter.mpr ⟨hY, by simpa using hname⟩)

theorem unlinkFiles_removes (ssts : List (Sst K)) : Removes fs (ssts.foldl unlinkFile fs) ssts := by
  induction ssts generalizing fs with
  | nil => exact removes_refl
  | cons X ssts ih => exact (unlinkFile_removes X).trans ih

theorem persistPartitionState_removes (h : persistPartitionState cfg fs p levels = .ok fs') :
    Removes fs fs' [] := by
  unfold persistPartitionState at h
  split at h
  · cases h
    exact removes_refl
  · split at h
    · cases h
    · next dir₀ hdir₀ =>
      cases h
      exact removes_update hdir₀ (fun X hX => hX) fun X hX => .inl hX

end Files

/-! ### Steps and runs -/

section Steps

variable {cfg : FilesConfig} {io : MergeIo K} {part : K → ℕ} {s s' : NamesState K}

namespace NamesInv

section

omit [LinearOrder K]

theorem frame (h : NamesInv cfg s) {levels : ℕ → ℕ → List (Sst K)}
    (hlevels : ∀ p i, ∀ X ∈ levels p i, X ∈ s.created)
    (hfiles : ∀ d dir, (disk.getD fun _ => none) d = some dir → ∀ X ∈ dir.files, X ∈ s.created)
    (hkept : ∀ X ∈ s.created, Stores (disk.getD fun _ => none) X ∨ Surpassed s.created X) :
    NamesInv cfg { s with disk, levels } :=
  { h with
    levels := hlevels
    files := hfiles
    kept := hkept
    tasks := fun t ht =>
      (h.tasks t ht).mono (fun _ hX => hX) le_rfl fun _ _ _ hX => .inl hX }

theorem removes (h : NamesInv cfg s) {fs : PartitionsPath K} (hremoves : Removes s.fs fs ssts)
    (hgone : ∀ X ∈ ssts, Surpassed s.created X) :
    NamesInv cfg { s with disk := s.disk.map fun _ => fs } := by
  rcases hdisk : s.disk with - | fs₀
  · have hfs : s.fs = fun _ => none := by rw [NamesState.fs, hdisk]; rfl
    refine h.frame h.levels ?_ ?_
    · exact hfs ▸ h.files
    · exact hfs ▸ h.kept
  · refine h.frame h.levels (fun d dir hdir X hX => ?_) fun X hX => ?_
    · obtain ⟨dir', hdir', hX'⟩ := hremoves.files d dir hdir X hX
      exact h.files d dir' hdir' X hX'
    · rcases h.kept X hX with hstored | hsurpassed
      · rcases hremoves.stores X hstored with hstored' | ⟨Y, hY, hname⟩
        · exact .inl hstored'
        · obtain ⟨Z, hZ, hlt⟩ := hgone Y hY
          exact .inr ⟨Z, hZ, indexId_eq_of_filename hname ▸ hlt⟩
      · exact .inr hsurpassed

theorem write (h : NamesInv cfg s) {task' : NamesTask K} {fs : PartitionsPath K}
    (hi : s.tasks[i]? = some task) (hnumber : task.number = some n) (hfresh : FreshNumber s n)
    (hadds : Adds s.fs fs ssts) (hid : ∀ X ∈ ssts, X.indexId = n)
    (hepoch : ∀ X ∈ ssts, X.epoch ≤ n)
    (howner : ∀ X ∈ ssts, X.upperBound ∈ partitionIds cfg.numPartitionExponent)
    (hparts : ssts.Pairwise fun X Y => X.upperBound ≠ Y.upperBound)
    (hnumber' : task'.number = none) (htask' : NamesTaskOk (s.create fs ssts) task') :
    NamesInv cfg ((s.create fs ssts).setTask i task') := by
  have hdone : NamesInv cfg (s.setTask i .done) := h.setTask i rfl trivial
  have hcreated : NamesInv cfg ((s.setTask i .done).create fs ssts) :=
    hdone.create (h.number_ne hi hnumber) ⟨hfresh.lt, hfresh.ne⟩ hid hepoch howner hparts
      hadds.stores hadds.files
  have htask : NamesTaskOk ((s.setTask i .done).create fs ssts) task' :=
    htask'.mono (fun X hX => hX) le_rfl fun m hm X hX => .inl hX
  have hset := hcreated.setTask i hnumber' htask
  simpa only [NamesState.setTask, NamesState.create, set_set] using hset

end

end NamesInv

/-- A merged SST has the number of the merge, an epoch of an input and their partition. -/
theorem kWayMergeAsync2_footer {config : MergeConfig} {fileId : ℕ} {inputs : List (Sst K)}
    {out : MergeOutput K} (h : kWayMergeAsync2 io config fileId inputs = .ok out) :
    out.sst.indexId = config.newIndexId ∧ (∃ X ∈ inputs, out.sst.epoch = X.epoch) ∧
      ∃ X ∈ inputs, out.sst.upperBound = X.upperBound := by
  rcases inputs with - | ⟨first, rest⟩
  · cases h
  · rw [kWayMergeAsync2] at h
    split at h
    · cases h
    · obtain ⟨st, -, h⟩ := ok_of_bind h
      obtain ⟨o, -, h⟩ := ok_of_bind h
      cases h
      obtain ⟨-, X, hX, hepoch⟩ := outputEpoch_spec first rest
      exact ⟨rfl, ⟨X, hX, hepoch⟩, first, mem_cons_self, rfl⟩

theorem flushMemtable_numbers {fileId epoch : ℕ} {entries : List (MemtableEntry K)}
    (h : flushMemtable part fileId epoch entries = .ok ssts) :
    (∀ X ∈ ssts, X.indexId = epoch ∧ X.epoch = epoch ∧ ∃ k, X.upperBound = part k) ∧
      ssts.Pairwise fun X Y => X.upperBound ≠ Y.upperBound := by
  refine ⟨fun X hX => ?_, ?_⟩
  · obtain ⟨i, hne, hexport⟩ := mem_flushMemtable h hX
    obtain ⟨e, he⟩ := exists_mem_of_ne_nil _ hne
    have hkey : part e.key = X.upperBound := by simpa using (mem_filter.mp he).2
    rw [hexport]
    exact ⟨rfl, rfl, e.key, hkey.symm⟩
  · unfold flushMemtable at h
    dsimp only at h
    split at h
    · next hnodup =>
      cases h
      have hbounds : ((partitionRanges part entries).mapIdx fun i range =>
          exportAsSst (fileId + i) epoch range).map Sst.upperBound =
            (partitionRanges part entries).map Prod.fst := by
        apply ext_getElem
        · simp
        · intro j hj hj'
          simp [exportAsSst]
      rw [← pairwise_map (f := Sst.upperBound), hbounds]
      exact hnodup
    · cases h

namespace NamesInv

theorem runTask (hpart : ∀ k, part k ∈ partitionIds cfg.numPartitionExponent) (h : NamesInv cfg s)
    (hi : s.tasks[i]? = some task) (fileId : ℕ) :
    NamesInv cfg (s.runTask cfg io part i fileId task) := by
  have hok := h.tasks task (mem_of_getElem? hi)
  have hdone : NamesInv cfg (s.setTask i .done) := h.setTask i rfl trivial
  cases task with
  | flush epoch entries =>
    rw [NamesState.runTask]
    split
    · exact hdone
    · next ssts hflush =>
      split
      · exact hdone
      · next fs hfs =>
        obtain ⟨hssts, hparts⟩ := flushMemtable_numbers hflush
        refine h.write hi rfl hok (createFiles_adds hfs) (fun X hX => (hssts X hX).1)
          (fun X hX => (hssts X hX).2.1.le) (fun X hX => ?_) hparts rfl
          fun X hX => mem_append_right _ hX
        obtain ⟨k, hk⟩ := (hssts X hX).2.2
        exact hk ▸ hpart k
  | flushed ssts =>
    have hlevels : ∀ p j, ∀ X ∈ s.pushNewSstsToL0 ssts p j, X ∈ s.created := by
      intro p j X hX
      rw [NamesState.pushNewSstsToL0, update_apply] at hX
      split at hX
      · rcases mem_append.mp hX with hX | hX
        · exact h.levels p 0 X hX
        · exact hok X (mem_filter.mp hX).1
      · exact h.levels p j X hX
    have hpushed : NamesInv cfg { s with disk := s.disk, levels := s.pushNewSstsToL0 ssts } :=
      h.frame hlevels h.files h.kept
    exact hpushed.setTask i rfl trivial
  | merge newIndexId level inputs discardDeletedKeys =>
    rw [NamesState.runTask]
    split
    · exact hdone
    · next out hmerge =>
      split
      · exact hdone
      · next fs hfs =>
        obtain ⟨hid, ⟨X, hX, hepoch⟩, Y, hY, hbound⟩ := kWayMergeAsync2_footer hmerge
        have hmem : out.sst ∈ (s.create fs [out.sst]).created :=
          mem_append_right _ (mem_singleton_self _)
        refine h.write hi rfl hok.1 (createFile_adds hfs) ?_ ?_ ?_ (pairwise_singleton _ _)
          rfl ⟨hmem, fun Z hZ => hid ▸ (hok.2 Z hZ).2⟩
        · simpa using hid
        · -- the epoch of an input, which is at most its number
          have hle := h.epoch_le X (hok.2 X hX).1
          have hlt := (hok.2 X hX).2
          simp only [mem_singleton, forall_eq]
          omega
        · simp only [mem_singleton, forall_eq]
          exact hbound ▸ h.owner Y (hok.2 Y hY).1
  | merged level inputs output =>
    have hlevels : ∀ p j, ∀ X ∈ update s.levels output.upperBound
        (PartitionState.replaceInputs cfg.toManager (s.levels output.upperBound) level inputs
          output) p j, X ∈ s.created := by
      intro p j X hX
      rw [update_apply] at hX
      split at hX
      · rcases mem_replaceInputs.mp hX with hold | ⟨-, rfl⟩
        · exact h.levels _ j X ((erasedLevel_sublist j).subset hold)
        · exact hok.1
      · exact h.levels p j X hX
    have hreplaced : NamesInv cfg { s with
        disk := s.disk
        levels := update s.levels output.upperBound
          (PartitionState.replaceInputs cfg.toManager (s.levels output.upperBound) level inputs
            output) } := h.frame hlevels h.files h.kept
    refine hreplaced.setTask i rfl fun X hX => ?_
    exact ⟨output, hok.1, hok.2 X hX⟩
  | committed p inputs =>
    rw [NamesState.runTask]
    split
    · exact hdone
    · next fs hfs =>
      have hremoves := (persistPartitionState_removes hfs).trans (unlinkFiles_removes inputs)
      exact (h.removes hremoves hok).setTask i rfl trivial
  | done => exact h

theorem failTask (hpart : ∀ k, part k ∈ partitionIds cfg.numPartitionExponent)
    (h : NamesInv cfg s) (hi : s.tasks[i]? = some task) (fileId : ℕ)
    (written : Sst K → Bool) : NamesInv cfg (s.failTask part i fileId written task) := by
  have hok := h.tasks task (mem_of_getElem? hi)
  have hdone : NamesInv cfg (s.setTask i .done) := h.setTask i rfl trivial
  cases task with
  | flush epoch entries =>
    rw [NamesState.failTask]
    split
    · exact hdone
    · next ssts hflush =>
      split
      · exact hdone
      · next fs hfs =>
        obtain ⟨hssts, hparts⟩ := flushMemtable_numbers hflush
        have hsub := (filter_sublist (p := written) (l := ssts)).subset
        refine h.write hi rfl hok (createFiles_adds hfs) (fun X hX => (hssts X (hsub hX)).1)
          (fun X hX => (hssts X (hsub hX)).2.1.le) (fun X hX => ?_)
          (hparts.sublist filter_sublist) rfl trivial
        obtain ⟨k, hk⟩ := (hssts X (hsub hX)).2.2
        exact hk ▸ hpart k
  | flushed | merge | merged | committed | done => exact hdone

omit [LinearOrder K] in
/-- **The counter recovered by a load** is behind every number that was ever used. -/
theorem lt_loaded (h : NamesInv cfg s) (hload : sstManagerLoad cfg s.disk = .ok mgr) :
    ∀ X ∈ s.created, X.indexId < mgr.flushIteration := by
  intro X hX
  -- the file with the largest number is still there
  obtain ⟨Z, hZ, hmax⟩ : ∃ Z ∈ s.created, ∀ Y ∈ s.created, Y.indexId ≤ Z.indexId := by
    obtain ⟨Z, hZ, heq⟩ := KeyedList.foldl_max_mem Sst.indexId (ne_nil_of_mem hX)
    exact ⟨Z, hZ, fun Y hY => heq ▸ (KeyedList.le_foldl_max Sst.indexId s.created 0).2 Y hY⟩
  have hstored : Stores s.fs Z := by
    rcases h.kept Z hZ with hstored | ⟨Y, hY, hlt⟩
    · exact hstored
    · exact absurd (hmax Y hY) hlt.not_ge
  obtain ⟨dir, hdir, hmem⟩ := hstored
  have hlt := (sstManagerLoad_spec hload).2 Z.upperBound (h.owner Z hZ) dir hdir Z hmem
  exact (hmax X hX).trans_lt hlt

omit [LinearOrder K] in
theorem reopen (h : NamesInv cfg s) (hload : sstManagerLoad cfg s.disk = .ok mgr) :
    NamesInv cfg { s with
      levels := NamesState.levelsOf mgr
      flushIteration := mgr.flushIteration
      tasks := [] } where
  epoch_le := h.epoch_le
  id_lt := h.lt_loaded hload
  owner := h.owner
  names := h.names
  levels := by
    intro p i X hX
    obtain ⟨d, dir, hdir, hmem⟩ := (sstManagerLoad_spec hload).1 p i X hX
    exact h.files d dir hdir X hmem
  files := h.files
  kept := h.kept
  tasks := by simp
  numbers := by simp

end NamesInv

theorem namesStep_inv (hpart : ∀ k, part k ∈ partitionIds cfg.numPartitionExponent)
    {a : NamesAct K} (h : NamesInv cfg s) (hstep : namesStep cfg io part s a = some s') :
    NamesInv cfg s' := by
  cases a with
  | startFlush entries =>
    cases hstep
    refine h.start rfl ⟨Nat.lt_succ_self _, fun X hX => ?_⟩
    exact (h.id_lt X hX).ne
  | startMerge p level inputs discardDeletedKeys =>
    rw [namesStep] at hstep
    split at hstep
    · next hinputs =>
      cases hstep
      refine h.start rfl ⟨⟨Nat.lt_succ_self _, fun X hX => (h.id_lt X hX).ne⟩, fun X hX => ?_⟩
      have hmem := h.levels p level X (hinputs X hX)
      exact ⟨hmem, h.id_lt X hmem⟩
    · cases hstep
  | run i fileId =>
    obtain ⟨task, hi, rfl⟩ := map_eq_some_iff.mp hstep
    exact h.runTask hpart hi fileId
  | fail i fileId written =>
    obtain ⟨task, hi, rfl⟩ := map_eq_some_iff.mp hstep
    exact h.failTask hpart hi fileId written
  | persist p =>
    rw [namesStep] at hstep
    split at hstep
    · cases hstep
      exact h
    · next fs hfs =>
      cases hstep
      exact h.removes (persistPartitionState_removes hfs) (by simp)
  | reopen =>
    rw [namesStep] at hstep
    split at hstep
    · split at hstep
      · cases hstep
      · next mgr hload =>
        cases hstep
        exact h.reopen hload
    · cases hstep

theorem namesStep_created {a : NamesAct K} (hstep : namesStep cfg io part s a = some s') :
    s.created <+: s'.created := by
  have hrun : ∀ i fileId task, s.created <+: (s.runTask cfg io part i fileId task).created := by
    intro i fileId task
    cases task with
    | flush epoch entries =>
      rw [NamesState.runTask]
      split
      · exact prefix_refl _
      · split
        · exact prefix_refl _
        · exact prefix_append _ _
    | merge newIndexId level inputs discardDeletedKeys =>
      rw [NamesState.runTask]
      split
      · exact prefix_refl _
      · split
        · exact prefix_refl _
        · exact prefix_append _ _
    | committed p inputs =>
      rw [NamesState.runTask]
      split <;> exact prefix_refl _
    | flushed | merged | done => exact prefix_refl _
  cases a with
  | startFlush entries =>
    cases hstep
    exact prefix_refl _
  | startMerge p level inputs discardDeletedKeys =>
    rw [namesStep] at hstep
    split at hstep <;> cases hstep
    exact prefix_refl _
  | run i fileId =>
    obtain ⟨task, -, rfl⟩ := map_eq_some_iff.mp hstep
    exact hrun i fileId task
  | fail i fileId written =>
    obtain ⟨task, -, rfl⟩ := map_eq_some_iff.mp hstep
    cases task with
    | flush epoch entries =>
      rw [NamesState.failTask]
      split
      · exact prefix_refl _
      · split
        · exact prefix_refl _
        · exact prefix_append _ _
    | flushed | merge | merged | committed | done => exact prefix_refl _
  | persist p =>
    rw [namesStep] at hstep
    split at hstep <;> cases hstep <;> exact prefix_refl _
  | reopen =>
    rw [namesStep] at hstep
    split at hstep
    · split at hstep <;> cases hstep
      exact prefix_refl _
    · cases hstep

theorem namesRun_inv (hpart : ∀ k, part k ∈ partitionIds cfg.numPartitionExponent)
    {as : List (NamesAct K)} (h : NamesInv cfg s)
    (hrun : Run.exec (namesStep cfg io part) s as = some s') : NamesInv cfg s' :=
  Run.exec_invariant (fun _ _ _ hs _ hstep => namesStep_inv hpart hs hstep) h
    (Run.allSteps_true s as) hrun

theorem namesRun_created {as : List (NamesAct K)}
    (hrun : Run.exec (namesStep cfg io part) s as = some s') : s.created <+: s'.created :=
  Run.exec_invariant (I := fun u => s.created <+: u.created)
    (fun _ _ _ hs _ hstep => hs.trans (namesStep_created hstep)) (prefix_refl _)
    (Run.allSteps_true s as) hrun

end Steps

/-- **Epochs and file numbers stay fresh.**  In every state that flushes, merges and
reopenings lead to, the epoch of an SST is at most the number in its name, and no two SSTs
of a partition were ever given one name.  The levels hold what was created, and every epoch
or number drawn from then on is larger than the epoch and the number of all of it. -/
theorem numbers_stay_fresh {cfg : FilesConfig} (hexp : cfg.numPartitionExponent ≤ 16)
    (io : MergeIo Bytes) {as : List (NamesAct Bytes)} {s : NamesState Bytes}
    (hrun : Run.exec (namesStep cfg io (findMatchingPartitionForKey cfg.numPartitionExponent)) {} as =
      some s) :
    (∀ X ∈ s.created, X.epoch ≤ X.indexId) ∧
      (s.created.Pairwise fun X Y => X.upperBound = Y.upperBound → X.filename ≠ Y.filename) ∧
      (∀ p i, ∀ X ∈ s.levels p i, X ∈ s.created) ∧
      ∀ bs u a n,
        Run.exec (namesStep cfg io (findMatchingPartitionForKey cfg.numPartitionExponent)) s bs =
          some u →
        drawn u a = some n → ∀ X ∈ s.created, X.epoch < n ∧ X.indexId < n := by
  have hpart := findMatchingPartitionForKey_mem hexp
  have hinv : NamesInv cfg s := namesRun_inv hpart namesInv_initial hrun
  refine ⟨hinv.epoch_le, hinv.names, hinv.levels, fun bs u a n hrest hdrawn X hX => ?_⟩
  have hnumber : n = u.flushIteration := by
    cases a with
    | startFlush | startMerge =>
        cases hdrawn
        rfl
    | run | fail | persist | reopen => cases hdrawn
  have hlt := (namesRun_inv hpart hinv hrest).id_lt X ((namesRun_created hrest).subset hX)
  have hle := hinv.epoch_le X hX
  omega

/-- A new database is opened, a table with one entry is flushed, the database is opened
again. -/
def firstFlush : List (NamesAct Bytes) :=
  [.reopen, .startFlush [⟨[7, 7], 0, [1, 10]⟩], .run 0 0, .run 0 0,
    .persist (findMatchingPartitionForKey 4 [7, 7]), .reopen]

/-- No SST is read. -/
def noChunks : MergeIo Bytes := ⟨fun _ => [], fun _ => true, fun _ _ => true, length⟩

theorem numbers_stay_fresh_firstFlush :
    ∃ s, Run.exec (namesStep { partitionsPath := "" } noChunks (findMatchingPartitionForKey 4)) {}
        firstFlush = some s ∧
      s.created.map Sst.indexId = [0] ∧ s.flushIteration = 1 ∧
      ∀ a n, drawn s a = some n → ∀ X ∈ s.created, X.epoch < n ∧ X.indexId < n := by
  have hview : (Run.exec (namesStep { partitionsPath := "" } noChunks
      (findMatchingPartitionForKey 4)) {} firstFlush).map
        (fun s => (s.created.map Sst.indexId, s.flushIteration)) = some ([0], 1) := by
    decide +kernel
  obtain ⟨s, hrun, hs⟩ := map_eq_some_iff.mp hview
  obtain ⟨hids, hnext⟩ := Prod.mk.inj hs
  refine ⟨s, hrun, hids, hnext, fun a n hdrawn => ?_⟩
  exact (numbers_stay_fresh (by decide) _ hrun).2.2.2 [] s a n rfl hdrawn

end HedgeDB
