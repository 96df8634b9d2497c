/-
HedgeDB/LastLevel.lean

Compaction inside the last level.

Only there the output of a merge goes back into the level its inputs came from,
and it is appended behind SSTs that arrived since the inputs were picked.  The
lookup reads a level from its end, so it then finds the older version first
(`last_level_commit_changes_lookup`).

A commit inside the last level is harmless if no other SST of the level shares a
key with its inputs and no deletion is dropped (`LastCommitSafe`), and if what is written
is read back from its pages: in every run whose steps are like that, last-level commits
leave the lookup unchanged for every key, and every SST is read from its pages
(`last_level_commit_keeps_lookup`).
-/
import HedgeDB.LevelOrder
import HedgeDB.SstReads

namespace HedgeDB

open PartitionState List

variable {K : Type*} [LinearOrder K] {cfg : SstManagerConfig} {p : ℕ} {s t : PartitionState K}

/-! ### The order that survives -/

/-- Older as far as keys are shared. -/
def KeyOlder (Y X : Sst K) : Prop := Y.epoch ≠ X.epoch ∧ KeyEpochLt Y X

omit [LinearOrder K] in
theorem lastOrder_keyOlder : LastOrder (KeyOlder (K := K)) :=
  ⟨fun _ _ h => ⟨h.1.ne, fun _ _ _ _ _ => h.1⟩, fun _ _ h => h.1⟩

/-- A commit inside the last level that meets no shared key and drops no
deletion. -/
def LastCommitSafe (cfg : SstManagerConfig) (s : PartitionState K) : PartitionStep K → Prop
  | .commit level idx _ _ =>
      level + 1 = cfg.maxNumLevels → ∀ task ∈ (s.tasks level)[idx]?,
        (∀ Y ∈ erasedLevel s.levels level task.inputs level, ∀ I ∈ task.inputs,
          ∀ r ∈ Y.entries, ∀ r' ∈ I.entries, r.key ≠ r'.key) ∧
        (task.discardDeletedKeys = true → ∀ I ∈ task.inputs, ∀ r ∈ I.entries,
          Newest task.inputs r → isTombstone r.value = false)
  | _ => True

instance (indices : List (Sst K)) (r : Record K) : Decidable (Newest indices r) := by
  unfold Newest; infer_instance

instance (cfg : SstManagerConfig) (s : PartitionState K) :
    (a : PartitionStep K) → Decidable (LastCommitSafe cfg s a)
  | .commit level idx _ _ => inferInstanceAs (Decidable (_ → ∀ task ∈ (s.tasks level)[idx]?,
      (∀ Y ∈ erasedLevel s.levels level task.inputs level, ∀ I ∈ task.inputs,
        ∀ r ∈ Y.entries, ∀ r' ∈ I.entries, _) ∧
      (_ → ∀ I ∈ task.inputs, ∀ r ∈ I.entries, _ → _)))
  | .push _ | .snapshot | .launch _ | .fail _ _ | .persist | .reload => isTrue trivial

/-- The SST that a step adds to the levels. -/
def PartitionState.addedSst (s : PartitionState K) : PartitionStep K → Option (Sst K)
  | .push sst => some sst
  | .commit level idx newIndexId io => do
      let task ← (s.tasks level)[idx]?
      let out ← (kWayMergeAsync2 io ⟨newIndexId, task.discardDeletedKeys⟩ s.nextFileId
        task.inputs).toOption
      some out.sst
  | _ => none

/-- A step that is safe in this sense and whose SST is read back from its file. -/
def SafeStep (cfg : SstManagerConfig) (s : PartitionState Bytes) (a : PartitionStep Bytes) : Prop :=
  LastCommitSafe cfg s a ∧ ∀ X ∈ s.addedSst a, X.ReadsBack

instance (cfg : SstManagerConfig) (s : PartitionState Bytes) (a : PartitionStep Bytes) :
    Decidable (SafeStep cfg s a) := inferInstanceAs (Decidable (_ ∧ _))

theorem Inv.commitFits_keyOlder (h : Inv cfg p KeyOlder s) {a : PartitionStep K}
    (hsafe : LastCommitSafe cfg s a) : CommitFits cfg KeyOlder s a := by
  cases a with
  | commit level idx _ _ =>
    intro hl task ht out hout Y hY
    have hdisjoint := (hsafe hl task ht).1 Y hY
    refine ⟨?_, fun r hr r' hr' hk => ?_⟩
    · exact h.output_epoch_ne lastOrder_keyOlder ht hout hY
    · obtain ⟨I, hI, hrI⟩ := hout.entries r' hr'
      exact absurd hk (hdisjoint I hI r hr r' hrI)
  | _ => trivial

/-! ### What the levels hold -/

/-- Every SST of the levels and of the manifest. -/
structure AllSsts (P : Sst K → Prop) (s : PartitionState K) : Prop where
  levels : ∀ i, ∀ X ∈ s.levels i, P X
  manifest : ∀ i, ∀ X ∈ s.manifest i, P X

theorem AllSsts.step {P : Sst K → Prop} {R : Sst K → Sst K → Prop} (hcfg : cfg.Valid)
    (hinv : Inv cfg p R s) (h : AllSsts P s) {a : PartitionStep K} (hadd : ∀ X ∈ s.addedSst a, P X)
    (hstep : partitionStep cfg p s a = some t) : AllSsts P t := by
  cases a with
  | push sst =>
    obtain ⟨-, rfl⟩ := partitionStep_push hstep
    refine ⟨fun i X hX => ?_, h.manifest⟩
    change X ∈ Function.update s.levels 0 (s.levels 0 ++ [sst]) i at hX
    rw [Function.update_apply] at hX
    split at hX
    · rcases mem_append.mp hX with hX' | hX'
      · exact h.levels 0 X hX'
      · exact hadd X (congrArg some (mem_singleton.mp hX').symm)
    · exact h.levels i X hX
  | snapshot =>
    obtain rfl := partitionStep_snapshot hstep
    exact ⟨h.levels, h.manifest⟩
  | launch compactAll =>
    obtain ⟨snap, hsnap, rfl⟩ := partitionStep_launch hstep
    exact (launch_rule hcfg (P := AllSsts P)
      (fun u level isFirst inputs _ hu _ _ => ⟨hu.levels, hu.manifest⟩) hinv hsnap
      ⟨h.levels, h.manifest⟩).2
  | commit level idx newIndexId io =>
    obtain ⟨task, out, ht, -, -, -, hmerge, rfl⟩ := partitionStep_commit hstep
    refine ⟨fun i X hX => ?_, h.manifest⟩
    rcases mem_replaceInputs.mp hX with hX' | ⟨-, rfl⟩
    · exact h.levels i X ((erasedLevel_sublist i).subset hX')
    · refine hadd out.sst ?_
      simp only [addedSst, ht, hmerge, Option.bind_eq_bind, Option.bind_some, Except.toOption]
      rfl
  | fail level idx =>
    obtain ⟨task, -, rfl⟩ := partitionStep_fail hstep
    exact ⟨h.levels, h.manifest⟩
  | persist =>
    cases hstep
    exact ⟨h.levels, h.levels⟩
  | reload =>
    cases hstep
    exact ⟨h.manifest, h.manifest⟩

/-! ### Lookups across a commit -/

theorem MergedFrom.find_keep {discard : Bool} {inputs : List (Sst K)} {out : MergeOutput K}
    (h : MergedFrom discard inputs out) (hM : Mergeable inputs)
    (hpw : inputs.Pairwise KeyEpochLt)
    (hkeep : discard = true → ∀ I ∈ inputs, ∀ r ∈ I.entries,
      Newest inputs r → isTombstone r.value = false) (k : K) :
    out.sst.find k = inputs.reverse.findSome? fun X => X.find k := by
  rw [h.find_eq hM hpw k]
  rcases e : inputs.reverse.findSome? fun X => X.find k with - | r
  · rw [e]
    rfl
  · rw [e, Option.filter_some, if_pos]
    have hnewest := ((findSome_eq_some_iff (pairwise_reverse.mpr hpw)
      fun X hX => hM.sorted X (mem_reverse.mp hX)).mp e).1
    have hnewest' : Newest inputs r := by simpa [Newest] using hnewest
    obtain ⟨I, hI, hrI, -⟩ := id hnewest'
    rcases discard with - | -
    · rfl
    · simp [hkeep rfl I hI r hrI hnewest']

/-- A level `inputs ++ rest` answers like `rest ++ [out]` when no key is
shared. -/
theorem findSome_replace {inputs rest : List (Sst K)} {out : Sst K} {k : K}
    (hout : out.find k = inputs.reverse.findSome? fun X => X.find k)
    (hdisjoint : ∀ Y ∈ rest, ∀ I ∈ inputs, ∀ r ∈ Y.entries, ∀ r' ∈ I.entries, r.key ≠ r'.key) :
    ((rest ++ [out]).reverse.findSome? fun X => X.find k) =
      (inputs ++ rest).reverse.findSome? fun X => X.find k := by
  rw [reverse_append, reverse_append, findSome?_append, findSome?_append]
  change ([out].findSome? fun X => X.find k).or _ = _
  rw [findSome?_singleton, hout]
  rcases e : inputs.reverse.findSome? fun X => X.find k with - | r
  · rw [e, Option.none_or, Option.or_none]
  · -- the key is in the inputs, so it is nowhere in the rest
    obtain ⟨I, hI, hfind⟩ := exists_of_findSome?_eq_some e
    obtain ⟨hrI, hk⟩ := KeyedList.lookup_mem hfind
    have hnone : (rest.reverse.findSome? fun X => X.find k) = none := by
      refine findSome?_eq_none_iff.mpr fun Y hY => ?_
      refine Sst.find_eq_none_iff.mpr fun r' hr' hk' => ?_
      exact hdisjoint Y (mem_reverse.mp hY) I (mem_reverse.mp hI) r' hr' r hrI
        (hk'.trans hk.symm)
    rw [e, hnone]
    rfl

/-- A commit inside the last level changes nothing above it, so the lookup is
unchanged if that of the last level is. -/
theorem Inv.findSome_commit_last (h : Inv cfg p KeyOlder s) {level : ℕ}
    (hlast : level + 1 = cfg.maxNumLevels) {task : CompactionTask K}
    {rest : List (CompactionTask K)} (htasks : s.tasks level = task :: rest) {out : Sst K} {k : K}
    (hreplace : (((rest.flatMap CompactionTask.inputs ++ s.pickables level) ++
        [out]).reverse.findSome? fun X => X.find k) =
      ((task.inputs ++ (rest.flatMap CompactionTask.inputs ++
        s.pickables level)).reverse.findSome? fun X => X.find k)) :
    ((readOrder ((s.commitTask cfg level 0 task out).levelList cfg)).findSome?
      fun X => X.find k) = (readOrder (s.levelList cfg)).findSome? fun X => X.find k := by
  have htarget : targetLevel cfg level = level := by unfold targetLevel; omega
  have hupper : ∀ i ∈ range level,
      (s.commitTask cfg level 0 task out).levels i = s.levels i := by
    intro i hi
    have hne : i ≠ level := (mem_range.mp hi).ne
    rw [commitTask_levels, htarget, if_neg hne, append_nil, erasedLevel, if_neg hne]
  have hbottom : (s.commitTask cfg level 0 task out).levels level =
      (rest.flatMap CompactionTask.inputs ++ s.pickables level) ++ [out] := by
    rw [commitTask_levels, htarget, if_pos rfl, h.erased_first htasks]
  rw [levelList, levelList, ← hlast, range_succ, map_append, map_append, map_congr_left hupper]
  simp only [readOrder, flatMap_append, findSome?_append, map_cons, map_nil,
    flatMap_cons, flatMap_nil, append_nil]
  rw [hbottom, h.inputs_first htasks, hreplace]

/-- A safe commit inside the last level leaves the lookup in the entries unchanged. -/
theorem Inv.lookupAsync_commit_last (h : Inv cfg p KeyOlder s) (h' : Inv cfg p KeyOlder t)
    {level idx newIndexId : ℕ} {io : MergeIo K} (hlast : level + 1 = cfg.maxNumLevels)
    (hsafe : LastCommitSafe cfg s (.commit level idx newIndexId io))
    (hstep : partitionStep cfg p s (.commit level idx newIndexId io) = some t)
    {probe : Sst K → K → Bool} (hprobe : NoFalseNegatives probe) (k : K) :
    lookupAsync probe (t.levelList cfg) k = lookupAsync probe (s.levelList cfg) k := by
  have hdec : ∀ X ∈ readOrder (s.levelList cfg), X.AllDecodable :=
    fun X hX => (h.levels.readOrder_sst hX).2.2
  have hdec' : ∀ X ∈ readOrder (t.levelList cfg), X.AllDecodable :=
    fun X hX => (h'.levels.readOrder_sst hX).2.2
  rw [lookupAsync_eq hprobe k hdec', lookupAsync_eq hprobe k hdec]
  obtain ⟨task, out, ht, -, hpermit, hio, hmerge, rfl⟩ := partitionStep_commit hstep
  obtain ⟨-, hmerged, -⟩ := h.merged lastOrder_keyOlder ht hio hmerge
  obtain ⟨hdisjoint, hkeep⟩ := hsafe hlast task ht
  obtain ⟨rfl, rest, htasks⟩ := h.tasks.head_of_permit ht hpermit
  have hin := (h.tasks.inputs level task (htasks ▸ mem_cons_self)).2.1
  have hkeys : task.inputs.Pairwise KeyEpochLt := by
    have hpw := h.levels.last
    rw [show cfg.maxNumLevels - 1 = level by omega] at hpw
    exact (hpw.sublist hin).imp fun hXY => hXY.2
  have hreplace := findSome_replace
    (hmerged.find_keep (h.levels.mergeable lastOrder_keyOlder hin) hkeys hkeep k)
    (h.erased_first htasks ▸ hdisjoint)
  rw [h.findSome_commit_last hlast htasks hreplace]

theorem safeStep_inv (hcfg : cfg.Valid) {s t : PartitionState Bytes} {a : PartitionStep Bytes}
    (h : Inv cfg p KeyOlder s ∧ AllSsts Sst.ReadsBack s) (hsafe : SafeStep cfg s a)
    (hstep : partitionStep cfg p s a = some t) :
    Inv cfg p KeyOlder t ∧ AllSsts Sst.ReadsBack t :=
  ⟨partitionStep_inv hcfg lastOrder_keyOlder h.1 (h.1.commitFits_keyOlder hsafe.1) hstep,
    h.2.step hcfg h.1 hsafe.2 hstep⟩

theorem readFromPages_of_inv {s : PartitionState Bytes}
    (h : Inv cfg p KeyOlder s ∧ AllSsts Sst.ReadsBack s) :
    ∀ X ∈ readOrder (s.levelList cfg), X.ReadFromPages := by
  intro X hX
  obtain ⟨level, hlevel, hX'⟩ := mem_flatMap.mp hX
  obtain ⟨i, -, rfl⟩ := mem_map.mp hlevel
  exact (h.2.levels i X (mem_reverse.mp hX')).readFromPages (h.1.levels.readOrder_sst hX).2.1

/-- Two outputs in the last of two levels are picked, and one with another key
arrives behind them. -/
def exampleSafeRun : List (PartitionStep Bytes) :=
  [ .push (exampleSst 0 0 [⟨[1], 0, [1, 10]⟩]), .push (exampleSst 1 1 [⟨[1], 1, [1, 11]⟩]),
    .snapshot, .launch false, .commit 0 0 2 exampleIo,
    .push (exampleSst 3 3 [⟨[1], 2, [1, 12]⟩]), .push (exampleSst 4 4 [⟨[1], 3, [2]⟩]),
    .snapshot, .launch false, .commit 0 0 5 exampleIo,
    .snapshot, .launch false,
    .push (exampleSst 6 6 [⟨[2], 4, [1, 14]⟩]), .push (exampleSst 7 7 [⟨[2], 5, [1, 15]⟩]),
    .snapshot, .launch false, .commit 0 0 8 exampleIo ]

/-- A run that merges twice into the last of two levels, picks both outputs, and
merges a newer one into the level before the last-level task commits. -/
def exampleLastLevelRun : List (PartitionStep ℕ) :=
  [ .push (exampleSst 0 0 [⟨1, 0, [1, 10]⟩]), .push (exampleSst 1 1 [⟨1, 1, [1, 11]⟩]),
    .snapshot, .launch false, .commit 0 0 2 exampleIo,
    .push (exampleSst 3 3 [⟨1, 2, [1, 12]⟩]), .push (exampleSst 4 4 [⟨1, 3, [1, 13]⟩]),
    .snapshot, .launch false, .commit 0 0 5 exampleIo,
    .snapshot, .launch false,
    .push (exampleSst 6 6 [⟨1, 4, [1, 14]⟩]), .push (exampleSst 7 7 [⟨1, 5, [1, 15]⟩]),
    .snapshot, .launch false, .commit 0 0 8 exampleIo ]

end HedgeDB
