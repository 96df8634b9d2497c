/-
HedgeDB/PartitionInvariant.lean

The invariant of a partition under every interleaving of flushes, compaction
rounds, commits, failed merges, manifest writes and reloads.

Besides the order of the levels (`LevelsOk`) it says how tasks sit on them.  In
each level the inputs of the unfinished tasks, in launch order, come first and
the pickable SSTs follow; so the task whose commit the permission chain allows
(`TasksOk.chain`) always holds the first SSTs of its level.  A stale snapshot still
shows the pickable SSTs of each level as an initial segment (`SnapshotOk`).

The order kept in the last level is the parameter `R` of `LevelsOk`; a commit
inside the last level has to fit it (`CommitFits`).
-/
import HedgeDB.Levels
import Mathlib.Data.List.Flatten

namespace HedgeDB

open PartitionState List Function

variable {K : Type*} [LinearOrder K]

/-! ### The invariant -/

namespace PartitionState

/-- The SSTs of a level that can be picked. -/
def pickables (s : PartitionState K) (i : ℕ) : List (Sst K) := (s.levels i).filter s.pickable

/-- The inputs of the tasks of a level, in launch order. -/
def inputsOf (s : PartitionState K) (i : ℕ) : List (Sst K) :=
  (s.tasks i).flatMap CompactionTask.inputs

end PartitionState

/-- How tasks sit on the levels. -/
structure TasksOk (cfg : SstManagerConfig) (s : PartitionState K) : Prop where
  inputs : ∀ i, ∀ t ∈ s.tasks i, t.inputs ≠ [] ∧ t.inputs.Sublist (s.levels i) ∧
    ∀ X ∈ t.inputs, s.pickable X = false
  disjoint : ∀ i, (s.inputsOf i).Pairwise fun X Y => X.id ≠ Y.id
  split : ∀ i, s.levels i = s.inputsOf i ++ s.pickables i
  chain : ∀ i, ∃ c, (s.tasks i).map CompactionTask.canWrite = range' c (s.tasks i).length ∧
    s.permissions i = c + (s.tasks i).length ∧ ∀ n, s.permits i n = if n = c then 1 else 0
  created : ∀ i, s.tasks i ≠ [] → s.created (targetLevel cfg i) = true
  created_level : ∀ j, 0 < j → s.levels j ≠ [] → s.created j = true
  ordered : s.created (cfg.maxNumLevels - 1) = false →
    (s.levels (cfg.maxNumLevels - 1)).Pairwise Older

/-- What the snapshot of the round in progress still says about the levels. -/
structure SnapshotOk (s : PartitionState K) : Prop where
  initial : ∀ snap, s.snapshot = some snap →
    ∀ i, (snap i).filter s.pickable <+: s.pickables i
  split : ∀ snap, s.snapshot = some snap → ∀ i,
    ∃ dead q, snap i = dead ++ q ∧ (∀ X ∈ dead, s.pickable X = false) ∧
      ∀ X ∈ q, s.pickable X = true

structure Inv (cfg : SstManagerConfig) (p : ℕ) (R : Sst K → Sst K → Prop)
    (s : PartitionState K) : Prop where
  levels : LevelsOk cfg p R s.levels
  manifest : LevelsOk cfg p R s.manifest
  fresh : ∀ i, ∀ X ∈ s.levels i, X.id < s.nextFileId
  fresh_manifest : ∀ i, ∀ X ∈ s.manifest i, X.id < s.nextFileId
  fresh_state : ∀ id, s.nextFileId ≤ id → s.compactionState id = .pickableForCompaction
  tasks : TasksOk cfg s
  snapshot : SnapshotOk s

variable {cfg : SstManagerConfig} {p : ℕ} {R : Sst K → Sst K → Prop} {s t : PartitionState K}

omit [LinearOrder K] in
theorem TasksOk.of_no_tasks (htasks : s.tasks = fun _ => []) (hperm : s.permissions = fun _ => 0)
    (hpermits : s.permits = fun _ n => if n = 0 then 1 else 0)
    (hpick : ∀ X, s.pickable X = true) (hcreated : ∀ j, 0 < j → s.levels j ≠ [] → s.created j = true)
    (hordered : s.created (cfg.maxNumLevels - 1) = false →
      (s.levels (cfg.maxNumLevels - 1)).Pairwise Older) : TasksOk cfg s := by
  refine ⟨by simp [htasks], by simp [inputsOf, htasks], ?_, ?_, by simp [htasks], hcreated, hordered⟩
  · intro i
    simp [inputsOf, htasks, pickables, filter_eq_self.mpr fun X _ => hpick X]
  · intro i
    exact ⟨0, by simp [htasks], by simp [htasks, hperm], by simp [hpermits]⟩

theorem inv_initial : Inv cfg p R ({} : PartitionState K) :=
  ⟨LevelsOk.empty, LevelsOk.empty, by simp, by simp, fun _ _ => rfl,
    TasksOk.of_no_tasks rfl rfl rfl (fun _ => rfl) (by simp) fun _ => Pairwise.nil,
    ⟨by simp, by simp⟩⟩

/-! ### Flush, snapshot, persist, reload -/

theorem Inv.push (h : Inv cfg p R s) (hcfg : 1 ≤ cfg.maxNumLevels) (hR : LastOrder R)
    {sst : Sst K} (hflushed : Flushed cfg p s sst) : Inv cfg p R (s.pushNewSstsToL0 sst) := by
  have hnewer : ∀ i, ∀ Y ∈ s.levels i, Older Y sst :=
    fun i Y hY => hflushed.newer i (h.levels.lt_of_mem hY) Y hY
  have hfresh : ∀ i, ∀ X ∈ s.levels i, X.id < sst.id :=
    fun i X hX => (h.fresh i X hX).trans_le hflushed.fresh
  have hpick : s.pickable sst = true := by
    simp [pickable, h.fresh_state _ hflushed.fresh]
  have hlevels : ∀ i, (s.pushNewSstsToL0 sst).levels i =
      s.levels i ++ if i = 0 then [sst] else [] := by
    intro i
    by_cases hi : i = 0
    · subst hi; simp [pushNewSstsToL0]
    · simp [pushNewSstsToL0, hi]
  have hpickables : ∀ i, (s.pushNewSstsToL0 sst).pickables i =
      s.pickables i ++ if i = 0 then [sst] else [] := by
    intro i
    change ((s.pushNewSstsToL0 sst).levels i).filter s.pickable = _
    rw [hlevels, filter_append]
    split <;> simp [pickables, hpick]
  have hsub : ∀ i, (s.levels i).Sublist ((s.pushNewSstsToL0 sst).levels i) :=
    fun i => hlevels i ▸ sublist_append_left _ _
  refine ⟨h.levels.push hcfg hR ⟨hflushed.partition, hflushed.sorted, hflushed.decodable⟩ hfresh
    hnewer, h.manifest, ?_, ?_, ?_, ?_, ?_⟩
  · intro i X hX
    rw [hlevels] at hX
    change X.id < max s.nextFileId (sst.id + 1)
    rcases mem_append.mp hX with hX' | hX'
    · exact (h.fresh i X hX').trans_le (le_max_left _ _)
    · split at hX'
      · obtain rfl := mem_singleton.mp hX'
        exact (Nat.lt_succ_self _).trans_le (le_max_right _ _)
      · cases hX'
  · exact fun i X hX => (h.fresh_manifest i X hX).trans_le (le_max_left _ _)
  · exact fun id hid => h.fresh_state id ((le_max_left _ _).trans hid)
  · refine ⟨fun i t ht => ?_, h.tasks.disjoint, fun i => ?_, h.tasks.chain, h.tasks.created,
      fun j hj hne => ?_, fun hc => ?_⟩
    · obtain ⟨hne, hin, hnp⟩ := h.tasks.inputs i t ht
      exact ⟨hne, hin.trans (hsub i), hnp⟩
    · rw [hlevels, hpickables, h.tasks.split i, append_assoc]
      rfl
    · rw [hlevels, if_neg hj.ne', append_nil] at hne
      exact h.tasks.created_level j hj hne
    · rw [hlevels]
      refine pairwise_append.mpr ⟨h.tasks.ordered hc, by split <;> simp, ?_⟩
      intro Y hY Z hZ
      split at hZ
      · obtain rfl := mem_singleton.mp hZ
        exact hnewer _ Y hY
      · cases hZ
  · refine ⟨fun snap hsnap i => ?_, h.snapshot.split⟩
    rw [hpickables]
    exact (h.snapshot.initial snap hsnap i).trans (prefix_append _ _)

theorem Inv.takeSnapshot (h : Inv cfg p R s) :
    Inv cfg p R { s with snapshot := some s.levels } := by
  refine { h with tasks := { h.tasks with }, snapshot := ⟨?_, ?_⟩ }
  · rintro snap ⟨⟩ i
    exact prefix_rfl
  · rintro snap ⟨⟩ i
    refine ⟨s.inputsOf i, s.pickables i, h.tasks.split i, ?_, fun X hX => ?_⟩
    · intro X hX
      obtain ⟨t, ht, hXt⟩ := mem_flatMap.mp hX
      exact (h.tasks.inputs i t ht).2.2 X hXt
    · exact (mem_filter.mp hX).2

theorem Inv.persist (h : Inv cfg p R s) : Inv cfg p R s.persistPartitionState :=
  ⟨h.levels, h.levels, h.fresh, h.fresh, h.fresh_state, { h.tasks with }, { h.snapshot with }⟩

theorem Inv.reload (h : Inv cfg p R s) : Inv cfg p R s.loadPartition := by
  refine ⟨h.manifest, h.manifest, h.fresh_manifest, h.fresh_manifest, fun _ _ => rfl,
    TasksOk.of_no_tasks rfl rfl rfl (fun _ => rfl) ?_ ?_, ⟨by simp [PartitionState.loadPartition],
      by simp [PartitionState.loadPartition]⟩⟩
  · intro j _ hne
    exact decide_eq_true hne
  · intro hc
    have hempty : s.manifest (cfg.maxNumLevels - 1) = [] := by
      simpa [PartitionState.loadPartition] using hc
    change (s.manifest (cfg.maxNumLevels - 1)).Pairwise Older
    rw [hempty]
    exact Pairwise.nil

/-! ### Launching a bucket -/

/-- `inputs` were picked from `level`: its first pickable SSTs. -/
structure Picked (s : PartitionState K) (level : ℕ) (inputs : List (Sst K)) : Prop where
  no_snapshot : s.snapshot = none
  ne : inputs ≠ []
  initial : inputs <+: s.pickables level

variable {i : ℕ}

section Launch

variable {level : ℕ} {isFirst : Bool} {inputs : List (Sst K)}

section

omit [LinearOrder K]

theorem Picked.levels (hp : Picked s level inputs) : inputs.Sublist (s.levels level) :=
  hp.initial.sublist.trans filter_sublist

theorem Picked.pickable (hp : Picked s level inputs) {X : Sst K} (hX : X ∈ inputs) :
    s.pickable X = true :=
  (mem_filter.mp (hp.initial.subset hX)).2

theorem launchBucket_pickable (hp : ∀ X ∈ inputs, s.pickable X = true) (X : Sst K) :
    (s.launchBucket cfg level isFirst inputs).pickable X =
      (s.pickable X && decide (X.id ∉ inputs.map Sst.id)) := by
  change decide (s.setCompactionState inputs .inCompaction X.id = _) = _
  by_cases hX : X.id ∈ inputs.map Sst.id
  · obtain ⟨Y, hY, he⟩ := mem_map.mp hX
    have hstate : s.compactionState X.id = .pickableForCompaction := by
      simpa [pickable, he] using hp Y hY
    simp [setCompactionState, hX, hstate, CompactionProgressState.setOrKeep,
      CompactionProgressState.set, CompactionProgressState.validTransition]
  · simp [setCompactionState, hX, pickable]

theorem launchBucket_pickables (hp : ∀ X ∈ inputs, s.pickable X = true) (i : ℕ) :
    (s.launchBucket cfg level isFirst inputs).pickables i =
      (s.pickables i).filter fun X => X.id ∉ inputs.map Sst.id := by
  rw [pickables, pickables, filter_filter]
  change (s.levels i).filter _ = _
  refine filter_congr fun X _ => ?_
  rw [launchBucket_pickable hp, Bool.and_comm]

end

theorem launchBucket_pickables_ne (h : LevelsOk cfg p R s.levels) (hp : Picked s level inputs)
    (hi : i ≠ level) : (s.launchBucket cfg level isFirst inputs).pickables i = s.pickables i := by
  rw [launchBucket_pickables fun X hX => hp.pickable hX]
  refine filter_eq_self.mpr fun X hX => decide_eq_true fun hmem => ?_
  obtain ⟨Y, hY, he⟩ := mem_map.mp hmem
  exact h.ids_ne i level hi X (mem_filter.mp hX).1 Y (hp.levels.subset hY) he.symm

omit [LinearOrder K] in
theorem filter_append_ids {l l' : List (Sst K)}
    (h : (l ++ l').Pairwise fun X Y => X.id ≠ Y.id) :
    (l ++ l').filter (fun X => X.id ∉ l.map Sst.id) = l' := by
  obtain ⟨-, -, hll'⟩ := pairwise_append.mp h
  rw [filter_append, filter_eq_nil_iff.mpr, nil_append, filter_eq_self.mpr]
  · intro X hX
    refine decide_eq_true fun hmem => ?_
    obtain ⟨Y, hY, he⟩ := mem_map.mp hmem
    exact hll' Y hY X hX he
  · intro X hX
    simpa using ⟨X, hX, rfl⟩

omit [LinearOrder K] in
theorem launchBucket_created_mono {j : ℕ} (hj : s.created j = true) :
    (s.launchBucket cfg level isFirst inputs).created j = true := by
  change update s.created _ true j = true
  by_cases h : j = targetLevel cfg level
  · subst h; simp
  · rwa [update_of_ne h]

theorem launchBucket_split (h : Inv cfg p R s) (hp : Picked s level inputs) (i : ℕ) :
    s.levels i = (s.launchBucket cfg level isFirst inputs).inputsOf i ++
      (s.launchBucket cfg level isFirst inputs).pickables i := by
  have hsplit := h.tasks.split i
  by_cases hil : i = level
  · subst hil
    obtain ⟨rest, hrest⟩ := hp.initial
    have hids : (inputs ++ rest).Pairwise fun X Y => X.id ≠ Y.id := by
      rw [hrest]
      exact (h.levels.ids i).sublist filter_sublist
    rw [launchBucket_pickables fun X hX => hp.pickable hX, ← hrest, filter_append_ids hids, hsplit,
      ← hrest]
    simp [inputsOf, launchBucket]
  · rw [launchBucket_pickables_ne h.levels hp hil, hsplit]
    simp [inputsOf, launchBucket, hil]

omit [LinearOrder K] in
theorem launchBucket_tasks {t : CompactionTask K}
    (ht : t ∈ (s.launchBucket cfg level isFirst inputs).tasks i) :
    t ∈ s.tasks i ∨
      i = level ∧ t = ⟨inputs, s.canDiscardKeys cfg level isFirst, s.permissions level, false⟩ := by
  by_cases hil : i = level
  · subst hil
    change t ∈ update s.tasks i _ i at ht
    rw [update_self] at ht
    rcases mem_append.mp ht with ht' | ht'
    · exact .inl ht'
    · obtain rfl := mem_singleton.mp ht'
      exact .inr ⟨rfl, rfl⟩
  · change t ∈ update s.tasks level _ i at ht
    rw [update_of_ne hil] at ht
    exact .inl ht

theorem Inv.launchBucket_disjoint (h : Inv cfg p R s) (hp : Picked s level inputs) (i : ℕ) :
    ((s.launchBucket cfg level isFirst inputs).inputsOf i).Pairwise fun X Y => X.id ≠ Y.id := by
  by_cases hil : i = level
  · subst hil
    have hinputs : (s.launchBucket cfg i isFirst inputs).inputsOf i = s.inputsOf i ++ inputs := by
      simp [inputsOf, PartitionState.launchBucket]
    rw [hinputs]
    refine pairwise_append.mpr ⟨h.tasks.disjoint i, (h.levels.ids i).sublist hp.levels, ?_⟩
    -- an older task's input cannot be picked, a new one could
    intro X hX Y hY he
    obtain ⟨t, ht, hXt⟩ := mem_flatMap.mp hX
    have h1 := (h.tasks.inputs i t ht).2.2 X hXt
    have h2 := hp.pickable hY
    rw [PartitionState.pickable, he] at h1
    rw [PartitionState.pickable, h1] at h2
    cases h2
  · have hinputs : (s.launchBucket cfg level isFirst inputs).inputsOf i = s.inputsOf i := by
      simp [inputsOf, PartitionState.launchBucket, hil]
    rw [hinputs]
    exact h.tasks.disjoint i

theorem Inv.launchBucket (h : Inv cfg p R s) (hp : Picked s level inputs) :
    Inv cfg p R (s.launchBucket cfg level isFirst inputs) := by
  have hpick : ∀ X, (s.launchBucket cfg level isFirst inputs).pickable X =
      (s.pickable X && decide (X.id ∉ inputs.map Sst.id)) :=
    launchBucket_pickable fun X hX => hp.pickable hX
  refine ⟨h.levels, h.manifest, h.fresh, h.fresh_manifest, fun id hid => ?_,
    ⟨fun i t ht => ?_, h.launchBucket_disjoint hp, launchBucket_split h hp, fun i => ?_,
      fun i hi => ?_, fun j hj hne => launchBucket_created_mono (h.tasks.created_level j hj hne),
      fun hc => ?_⟩, ⟨?_, ?_⟩⟩
  · -- a fresh id is not among the inputs
    have hnot : id ∉ inputs.map Sst.id := by
      intro hmem
      obtain ⟨X, hX, rfl⟩ := mem_map.mp hmem
      exact absurd (h.fresh level X (hp.levels.subset hX)) (not_lt.mpr hid)
    change s.setCompactionState inputs .inCompaction id = _
    rw [setCompactionState, if_neg hnot]
    exact h.fresh_state id hid
  · rcases launchBucket_tasks ht with hold | ⟨rfl, rfl⟩
    · obtain ⟨hne, hin, hnp⟩ := h.tasks.inputs i t hold
      refine ⟨hne, hin, fun X hX => ?_⟩
      rw [hpick, hnp X hX, Bool.false_and]
    · refine ⟨hp.ne, hp.levels, fun X hX => ?_⟩
      have hmem : X.id ∈ inputs.map Sst.id := mem_map_of_mem hX
      rw [hpick]
      simp [hmem]
  · obtain ⟨c, hcan, hperm, hpermits⟩ := h.tasks.chain i
    by_cases hil : i = level
    · subst hil
      refine ⟨c, ?_, ?_, hpermits⟩
      · simp [PartitionState.launchBucket, hcan, hperm, range'_concat]
      · simp [PartitionState.launchBucket, hperm, Nat.add_assoc]
    · refine ⟨c, ?_, ?_, hpermits⟩
      · simpa [PartitionState.launchBucket, hil] using hcan
      · simpa [PartitionState.launchBucket, hil] using hperm
  · by_cases hil : i = level
    · subst hil
      simp [PartitionState.launchBucket]
    · refine launchBucket_created_mono (h.tasks.created i ?_)
      simpa [PartitionState.launchBucket, hil] using hi
  · refine h.tasks.ordered ?_
    by_contra hne
    rw [launchBucket_created_mono (by simpa using hne)] at hc
    cases hc
  · intro snap hsnap
    exact absurd (hp.no_snapshot.symm.trans hsnap) (by simp)
  · intro snap hsnap
    exact absurd (hp.no_snapshot.symm.trans hsnap) (by simp)

variable {P : PartitionState K → Prop}

/-- What every launched bucket preserves is preserved by all buckets of a
level. -/
theorem launchLevel_rule (level : ℕ) (isFirst : Bool) {buckets : List (List (Sst K))}
    (hstep : ∀ t isFirst inputs, Inv cfg p R t → P t → Picked t level inputs →
      inputs ∈ buckets → P (t.launchBucket cfg level isFirst inputs)) (h : Inv cfg p R s)
    (hP : P s) (hsnap : s.snapshot = none) (hne : ∀ b ∈ buckets, b ≠ [])
    (hinit : buckets.flatten <+: s.pickables level) :
    Inv cfg p R (launchLevel cfg level isFirst buckets s) ∧
      P (launchLevel cfg level isFirst buckets s) ∧
      (launchLevel cfg level isFirst buckets s).snapshot = none ∧
      ∀ i, i ≠ level → (launchLevel cfg level isFirst buckets s).pickables i = s.pickables i := by
  induction buckets generalizing s isFirst with
  | nil => exact ⟨h, hP, hsnap, fun _ _ => rfl⟩
  | cons b rest ih =>
    rw [flatten_cons] at hinit
    have hp : Picked s level b :=
      ⟨hsnap, hne b mem_cons_self, (prefix_append _ _).trans hinit⟩
    have hids : (s.pickables level).Pairwise fun X Y => X.id ≠ Y.id :=
      (h.levels.ids level).sublist filter_sublist
    have hpickables : (s.launchBucket cfg level isFirst b).pickables level = _ :=
      launchBucket_pickables (fun X hX => hp.pickable hX) level
    obtain ⟨hI, hP', hs', hothers⟩ := ih false
      (fun t f i hI hP hpick hi => hstep t f i hI hP hpick (mem_cons_of_mem _ hi))
      (h.launchBucket hp)
      (hstep s isFirst b h hP hp mem_cons_self) hsnap
      (fun c hc => hne c (mem_cons_of_mem _ hc))
      (by
        obtain ⟨tail, htail⟩ := hinit
        rw [append_assoc] at htail
        rw [hpickables, ← htail, filter_append_ids (htail.symm ▸ hids)]
        exact prefix_append _ _)
    refine ⟨hI, hP', hs', fun i hi => ?_⟩
    exact (hothers i hi).trans (launchBucket_pickables_ne h.levels hp hi)

/-- **The launch rule**: a round launches one picked bucket after the other, so
what every launched bucket preserves is preserved by the round. -/
theorem launch_rule (hcfg : cfg.Valid) {compactAll : Bool} {snap : ℕ → List (Sst K)}
    (hstep : ∀ t level isFirst inputs, Inv cfg p R t → P t → Picked t level inputs →
      inputs ∈ s.pickBuckets cfg compactAll snap level →
      P (t.launchBucket cfg level isFirst inputs)) (h : Inv cfg p R s)
    (hsnap : s.snapshot = some snap) (hP : P { s with snapshot := none }) :
    Inv cfg p R (s.launchCompactionTasks cfg compactAll snap) ∧
      P (s.launchCompactionTasks cfg compactAll snap) := by
  have hstart : Inv cfg p R { s with snapshot := none } :=
    { h with tasks := { h.tasks with }, snapshot := ⟨by simp, by simp⟩ }
  have hwidths : 2 ≤ (if compactAll then 2 else cfg.minMergeWidth) ∧
      (if compactAll then 2 else cfg.minMergeWidth) ≤
        if compactAll then 2 ^ 64 - 1 else cfg.maxMergeWidth := by
    have h2 := hcfg.two_le
    have hw := hcfg.width
    cases compactAll
    · exact ⟨h2, hw.le⟩
    · exact ⟨le_rfl, show 2 ≤ 2 ^ 64 - 1 by decide⟩
  -- after the first `n` levels the others are as they were
  suffices hn : ∀ n t, (range n).foldl
        (fun t level => launchLevel cfg level true (s.pickBuckets cfg compactAll snap level) t)
        { s with snapshot := none } = t →
      Inv cfg p R t ∧ P t ∧ t.snapshot = none ∧ ∀ i, n ≤ i → t.pickables i = s.pickables i from
    ⟨(hn cfg.maxNumLevels _ rfl).1, (hn cfg.maxNumLevels _ rfl).2.1⟩
  intro n
  induction n with
  | zero =>
    rintro t rfl
    exact ⟨hstart, hP, rfl, fun _ _ => rfl⟩
  | succ n ih =>
    rintro t rfl
    obtain ⟨hI, hPt, hsn, hpk⟩ := ih _ rfl
    rw [range_succ, foldl_append, foldl_cons, foldl_nil]
    have hpre := h.snapshot.initial snap hsnap n
    obtain ⟨hI', hP', hsn', hpk'⟩ := launchLevel_rule n true
      (fun t f inputs hI hP hp hi => hstep t n f inputs hI hP hp hi) hI hPt hsn
      (fun b hb hnil => by
        have := le_length_of_mem_createBucketsFromLevel hb
        rw [hnil, length_nil] at this
        omega)
      (by
        obtain ⟨dead, q, hdq, hdead, hq⟩ := h.snapshot.split snap hsnap n
        have hfilter : (snap n).filter s.pickable = q := by
          rw [hdq, filter_append, filter_eq_nil_iff.mpr fun X hX => by simp [hdead X hX],
            filter_eq_self.mpr hq, nil_append]
        rw [hpk n le_rfl]
        refine IsPrefix.trans ?_ (hfilter ▸ hpre)
        rw [pickBuckets, hdq]
        exact createBucketsFromLevel_initial hwidths.2 hdead hq)
    refine ⟨hI', hP', hsn', fun i hi => ?_⟩
    exact (hpk' i (by omega)).trans (hpk i (by omega))

end Launch

/-! ### Completion of a task -/

section Complete

variable {level idx : ℕ} {task : CompactionTask K} {out : Sst K}

theorem map_set_eq {α β : Type*} {f : α → β} {l : List α} {a b : α} (h : l[i]? = some a)
    (hf : f b = f a) : (l.set i b).map f = l.map f := by
  apply ext_getElem?
  intro j
  rw [List.getElem?_map, List.getElem?_map, List.getElem?_set]
  by_cases hij : i = j
  · subst hij
    obtain ⟨hlt, rfl⟩ := List.getElem?_eq_some_iff.mp h
    simp [hlt, hf]
  · simp [hij]

omit [LinearOrder K] in
theorem failTask_pickable (hnp : ∀ X ∈ task.inputs, s.pickable X = false) (X : Sst K) :
    (s.failTask level idx task).pickable X = s.pickable X := by
  change decide (s.setCompactionState task.inputs .compactionError X.id = _) = _
  by_cases hX : X.id ∈ task.inputs.map Sst.id
  · obtain ⟨Y, hY, he⟩ := mem_map.mp hX
    have hstate : s.compactionState X.id ≠ .pickableForCompaction := by
      simpa [pickable, he] using hnp Y hY
    have hkeep : (s.compactionState X.id).setOrKeep .compactionError ≠ .pickableForCompaction := by
      revert hstate
      rcases s.compactionState X.id with - | - | - | - <;>
        simp [CompactionProgressState.setOrKeep, CompactionProgressState.set,
          CompactionProgressState.validTransition]
    simp [setCompactionState, hX, hkeep, pickable, hstate]
  · simp [setCompactionState, hX, pickable]

omit [LinearOrder K] in
theorem failTask_map {β : Type*} (ht : (s.tasks level)[idx]? = some task)
    {f : CompactionTask K → β} (hf : f { task with failed := true } = f task) (i : ℕ) :
    ((s.failTask level idx task).tasks i).map f = (s.tasks i).map f := by
  change (update s.tasks level _ i).map f = _
  by_cases hi : i = level
  · subst hi
    rw [update_self]
    exact map_set_eq ht hf
  · rw [update_of_ne hi]

theorem Inv.fail (h : Inv cfg p R s) (ht : (s.tasks level)[idx]? = some task) :
    Inv cfg p R (s.failTask level idx task) := by
  have hmem := mem_of_getElem? ht
  have hpick : ∀ X, (s.failTask level idx task).pickable X = s.pickable X :=
    failTask_pickable (h.tasks.inputs level task hmem).2.2
  have hpickable : (s.failTask level idx task).pickable = s.pickable := funext hpick
  have hpickables : ∀ i, (s.failTask level idx task).pickables i = s.pickables i := by
    intro i
    change (s.levels i).filter _ = _
    rw [hpickable, pickables]
  have hinputs := failTask_map ht (f := CompactionTask.inputs) rfl
  have hlen : ∀ i, ((s.failTask level idx task).tasks i).length = (s.tasks i).length := by
    intro i
    simpa using congrArg length (hinputs i)
  have hinputsOf : ∀ i, (s.failTask level idx task).inputsOf i = s.inputsOf i := by
    intro i
    rw [inputsOf, inputsOf, flatMap_def, flatMap_def, hinputs]
  refine ⟨h.levels, h.manifest, h.fresh, h.fresh_manifest, fun id hid => ?_,
    ⟨fun i t hti => ?_, fun i => ?_, fun i => ?_, fun i => ?_, fun i hi => ?_,
      h.tasks.created_level, h.tasks.ordered⟩,
    ⟨fun snap hsnap i => ?_, fun snap hsnap i => ?_⟩⟩
  · have hnot : id ∉ task.inputs.map Sst.id := by
      intro hm
      obtain ⟨X, hX, rfl⟩ := mem_map.mp hm
      exact absurd (h.fresh level X ((h.tasks.inputs level task hmem).2.1.subset hX))
        (not_lt.mpr hid)
    change s.setCompactionState task.inputs .compactionError id = _
    rw [setCompactionState, if_neg hnot]
    exact h.fresh_state id hid
  · have hin : t.inputs ∈ (s.tasks i).map CompactionTask.inputs :=
      hinputs i ▸ mem_map_of_mem hti
    obtain ⟨t', ht', he⟩ := mem_map.mp hin
    rw [← he, hpickable]
    exact h.tasks.inputs i t' ht'
  · rw [hinputsOf]
    exact h.tasks.disjoint i
  · rw [hinputsOf, hpickables]
    exact h.tasks.split i
  · rw [failTask_map ht (f := CompactionTask.canWrite) rfl, hlen]
    exact h.tasks.chain i
  · refine h.tasks.created i fun hnil => hi ?_
    rw [← length_eq_zero_iff, hlen, hnil, length_nil]
  · rw [hpickables, hpickable]
    exact h.snapshot.initial snap hsnap i
  · rw [hpickable]
    exact h.snapshot.split snap hsnap i

omit [LinearOrder K] in
theorem TasksOk.head_of_permit (h : TasksOk cfg s) (ht : (s.tasks level)[idx]? = some task)
    (hpermit : s.permits level task.canWrite ≠ 0) :
    idx = 0 ∧ ∃ rest, s.tasks level = task :: rest := by
  obtain ⟨c, hcan, -, hpermits⟩ := h.chain level
  have hidx : task.canWrite = c + idx := by
    have := congrArg (·[idx]?) hcan
    simp only [List.getElem?_map, ht, Option.map_some] at this
    obtain ⟨hlt, -⟩ := List.getElem?_eq_some_iff.mp ht
    rw [List.getElem?_range' hlt] at this
    simpa using this
  have hc : task.canWrite = c := by
    by_contra hne
    exact hpermit (by rw [hpermits, if_neg hne])
  obtain rfl : idx = 0 := by omega
  rcases e : s.tasks level with - | ⟨t, rest⟩
  · simp [e] at ht
  · obtain rfl : t = task := by simpa [e] using ht
    exact ⟨rfl, rest, rfl⟩

variable {rest : List (CompactionTask K)}

theorem Inv.inputs_first (h : Inv cfg p R s) (ht : s.tasks level = task :: rest) :
    s.levels level = task.inputs ++ (rest.flatMap CompactionTask.inputs ++ s.pickables level) := by
  rw [h.tasks.split level, inputsOf, ht, flatMap_cons, append_assoc]

theorem Inv.erased_first (h : Inv cfg p R s) (ht : s.tasks level = task :: rest) :
    erasedLevel s.levels level task.inputs level =
      rest.flatMap CompactionTask.inputs ++ s.pickables level := by
  have hfirst := h.inputs_first ht
  rw [erasedLevel, if_pos rfl, hfirst]
  exact filter_append_ids (hfirst ▸ h.levels.ids level)

theorem Inv.older_of_erased (h : Inv cfg p R s) (ht : s.tasks level = task :: rest)
    (hlevel : level + 1 < cfg.maxNumLevels) {X I : Sst K}
    (hX : X ∈ erasedLevel s.levels level task.inputs level) (hI : I ∈ task.inputs) : Older I X := by
  have hwithin := h.levels.within level hlevel
  rw [h.inputs_first ht] at hwithin
  rw [h.erased_first ht] at hX
  exact (pairwise_append.mp hwithin).2.2 I hI X hX

section

omit [LinearOrder K]

theorem commitTask_levels (i : ℕ) :
    (s.commitTask cfg level idx task out).levels i =
      erasedLevel s.levels level task.inputs i ++
        if i = targetLevel cfg level then [out] else [] := replaceInputs_eq i

theorem commitTask_pickables (hnp : ∀ X ∈ task.inputs, s.pickable X = false)
    (hpick : s.pickable out = true) (i : ℕ) :
    (s.commitTask cfg level idx task out).pickables i =
      s.pickables i ++ if i = targetLevel cfg level then [out] else [] := by
  have herased : (erasedLevel s.levels level task.inputs i).filter s.pickable = s.pickables i := by
    rw [erasedLevel]
    split
    · rw [filter_filter]
      refine filter_congr fun X _ => ?_
      by_cases hX : X.id ∈ task.inputs.map Sst.id
      · obtain ⟨Y, hY, he⟩ := mem_map.mp hX
        have hXY : s.pickable X = s.pickable Y := by simp [pickable, he]
        simp [hXY, hnp Y hY]
      · simp [hX]
    · rfl
  change ((s.commitTask cfg level idx task out).levels i).filter s.pickable = _
  rw [commitTask_levels, filter_append, herased]
  split <;> simp [hpick]

theorem commitTask_tasks (ht : s.tasks level = task :: rest) (i : ℕ) :
    (s.commitTask cfg level 0 task out).tasks i =
      if i = level then rest else s.tasks i := by
  change update s.tasks level _ i = _
  by_cases hi : i = level
  · subst hi
    simp [ht]
  · simp [hi]

theorem commitTask_tasks_sublist (ht : s.tasks level = task :: rest) (i : ℕ) :
    ((s.commitTask cfg level 0 task out).tasks i).Sublist (s.tasks i) := by
  rw [commitTask_tasks ht]
  split
  · next hi =>
    rw [hi, ht]
    exact sublist_cons_self _ _
  · exact Sublist.refl _

end

theorem Inv.commit_inputs (h : Inv cfg p R s) (ht : s.tasks level = task :: rest) (i : ℕ)
    {t : CompactionTask K} (hti : t ∈ (s.commitTask cfg level 0 task out).tasks i) :
    t.inputs.Sublist ((s.commitTask cfg level 0 task out).levels i) := by
  rw [commitTask_tasks ht] at hti
  rw [commitTask_levels]
  refine Sublist.trans ?_ (sublist_append_left _ _)
  split at hti
  · next hi =>
    subst hi
    have hmem : t ∈ s.tasks i := ht ▸ mem_cons_of_mem _ hti
    have hdisjoint := h.tasks.disjoint i
    rw [inputsOf, ht, flatMap_cons] at hdisjoint
    have hself : t.inputs.filter (fun X => X.id ∉ task.inputs.map Sst.id) = t.inputs := by
      refine filter_eq_self.mpr fun X hX => decide_eq_true fun hid => ?_
      obtain ⟨Y, hY, he⟩ := mem_map.mp hid
      exact (pairwise_append.mp hdisjoint).2.2 Y hY X
        (mem_flatMap.mpr ⟨t, hti, hX⟩) he
    rw [erasedLevel, if_pos rfl, ← hself]
    exact (h.tasks.inputs i t hmem).2.1.filter _
  · next hi =>
    rw [erasedLevel, if_neg hi]
    exact (h.tasks.inputs i t hti).2.1

theorem Inv.commit_split (h : Inv cfg p R s) (ht : s.tasks level = task :: rest)
    (hpick : s.pickable out = true) (i : ℕ) :
    (s.commitTask cfg level 0 task out).levels i =
      (s.commitTask cfg level 0 task out).inputsOf i ++
        (s.commitTask cfg level 0 task out).pickables i := by
  have htask : task ∈ s.tasks level := ht ▸ mem_cons_self
  rw [commitTask_levels, commitTask_pickables (h.tasks.inputs level task htask).2.2 hpick, inputsOf,
    commitTask_tasks ht]
  by_cases hil : i = level
  · subst hil
    rw [if_pos rfl, h.erased_first ht, append_assoc]
  · rw [if_neg hil, erasedLevel, if_neg hil, h.tasks.split i, inputsOf, append_assoc]

theorem Inv.commit_chain (h : Inv cfg p R s) (ht : s.tasks level = task :: rest) (i : ℕ) :
    ∃ c, ((s.commitTask cfg level 0 task out).tasks i).map CompactionTask.canWrite =
        range' c ((s.commitTask cfg level 0 task out).tasks i).length ∧
      s.permissions i = c + ((s.commitTask cfg level 0 task out).tasks i).length ∧
      ∀ n, (s.commitTask cfg level 0 task out).permits i n = if n = c then 1 else 0 := by
  obtain ⟨c, hcan, hperm, hpermits⟩ := h.tasks.chain i
  by_cases hil : i = level
  · subst hil
    -- the chain moves on by one semaphore
    rw [commitTask_tasks ht, if_pos rfl]
    rw [ht, map_cons, length_cons, range'_succ] at hcan
    obtain ⟨hc, hrest⟩ := cons.inj hcan
    refine ⟨c + 1, hrest, ?_, fun n => ?_⟩
    · rw [hperm, ht, length_cons]
      omega
    · change update s.permits i _ i n = _
      rw [update_self]
      rw [hpermits, hc]
      split_ifs <;> omega
  · refine ⟨c, ?_, ?_, fun n => ?_⟩
    · rw [commitTask_tasks ht, if_neg hil]
      exact hcan
    · rw [commitTask_tasks ht, if_neg hil]
      exact hperm
    · change update s.permits level _ i n = _
      rw [update_of_ne hil]
      exact hpermits n

theorem Inv.commit (h : Inv cfg p R s) (hcfg : 1 ≤ cfg.maxNumLevels) (hR : LastOrder R)
    (ht : (s.tasks level)[idx]? = some task) (hpermit : s.permits level task.canWrite ≠ 0)
    (hout : OutputOf task.inputs out) (hid : s.nextFileId ≤ out.id)
    (hfit : level + 1 = cfg.maxNumLevels →
      ∀ Y ∈ erasedLevel s.levels level task.inputs level, R Y out) :
    Inv cfg p R (s.commitTask cfg level idx task out) := by
  obtain ⟨rfl, rest, htasks⟩ := h.tasks.head_of_permit ht hpermit
  have htask : task ∈ s.tasks level := htasks ▸ mem_cons_self
  obtain ⟨-, hin, hnp⟩ := h.tasks.inputs level task htask
  have hpick : s.pickable out = true := by simp [pickable, h.fresh_state _ hid]
  have hcreated : s.created (targetLevel cfg level) = true :=
    h.tasks.created level (by simp [htasks])
  have hpickables : ∀ i, (s.commitTask cfg level 0 task out).pickables i =
      s.pickables i ++ if i = targetLevel cfg level then [out] else [] :=
    commitTask_pickables hnp hpick
  have herased : ∀ {i X}, X ∈ erasedLevel s.levels level task.inputs i → X ∈ s.levels i :=
    fun hX => (erasedLevel_sublist _).subset hX
  refine ⟨h.levels.commit hcfg hR hin hout (fun i X hX => (h.fresh i X hX).trans_le hid)
    (fun hlt X hX I hI => h.older_of_erased htasks hlt hX hI) hfit, h.manifest, ?_,
    fun i X hX => (h.fresh_manifest i X hX).trans_le (le_max_left _ _),
    fun id hle => h.fresh_state id ((le_max_left _ _).trans hle),
    ⟨fun i t hti => ?_, fun i => ?_, h.commit_split htasks hpick,
      h.commit_chain htasks, fun i hi => ?_, fun j hj hne => ?_, fun hc => ?_⟩,
    ⟨fun snap hsnap i => ?_, h.snapshot.split⟩⟩
  · intro i X hX
    change X.id < max s.nextFileId (out.id + 1)
    rcases mem_replaceInputs.mp hX with hX' | ⟨-, rfl⟩
    · exact (h.fresh i X (herased hX')).trans_le (le_max_left _ _)
    · exact (Nat.lt_succ_self _).trans_le (le_max_right _ _)
  · obtain ⟨hne, -, hnpt⟩ := h.tasks.inputs i t ((commitTask_tasks_sublist htasks i).subset hti)
    exact ⟨hne, h.commit_inputs htasks i hti, hnpt⟩
  · exact (h.tasks.disjoint i).sublist ((commitTask_tasks_sublist htasks i).flatMap _)
  · refine h.tasks.created i fun hnil => hi ?_
    exact sublist_nil.mp (hnil ▸ commitTask_tasks_sublist htasks i)
  · by_cases hjt : j = targetLevel cfg level
    · exact hjt ▸ hcreated
    · refine h.tasks.created_level j hj fun hnil => hne ?_
      rw [commitTask_levels, if_neg hjt, append_nil]
      exact sublist_nil.mp (hnil ▸ erasedLevel_sublist j)
  · have hne : cfg.maxNumLevels - 1 ≠ targetLevel cfg level := by
      intro he
      rw [← he] at hcreated
      exact absurd (hcreated.symm.trans hc) (by simp)
    rw [commitTask_levels, if_neg hne, append_nil]
    exact (h.tasks.ordered hc).sublist (erasedLevel_sublist _)
  · rw [hpickables]
    exact (h.snapshot.initial snap hsnap i).trans (prefix_append _ _)

end Complete

/-! ### Steps -/

variable {level idx : ℕ}

theorem partitionStep_push {sst : Sst K} (hstep : partitionStep cfg p s (.push sst) = some t) :
    Flushed cfg p s sst ∧ t = s.pushNewSstsToL0 sst := by
  obtain ⟨hflushed, ht⟩ := Option.ite_none_right_eq_some.mp hstep
  exact ⟨hflushed, (Option.some.inj ht).symm⟩

theorem partitionStep_snapshot (hstep : partitionStep cfg p s .snapshot = some t) :
    t = { s with snapshot := some s.levels } := by
  rw [partitionStep] at hstep
  split at hstep
  · cases hstep
  · exact (Option.some.inj hstep).symm

theorem partitionStep_launch {compactAll : Bool}
    (hstep : partitionStep cfg p s (.launch compactAll) = some t) :
    ∃ snap, s.snapshot = some snap ∧ t = s.launchCompactionTasks cfg compactAll snap := by
  rw [partitionStep] at hstep
  split at hstep
  · cases hstep
  · next snap hsnap => exact ⟨snap, hsnap, (Option.some.inj hstep).symm⟩

theorem partitionStep_fail (hstep : partitionStep cfg p s (.fail level idx) = some t) :
    ∃ task, (s.tasks level)[idx]? = some task ∧ t = s.failTask level idx task := by
  rw [partitionStep] at hstep
  split at hstep
  · cases hstep
  · next task htask =>
    split at hstep <;> cases hstep
    exact ⟨task, htask, rfl⟩

theorem partitionStep_commit {newIndexId : ℕ} {io : MergeIo K}
    (hstep : partitionStep cfg p s (.commit level idx newIndexId io) = some t) :
    ∃ task out, (s.tasks level)[idx]? = some task ∧ task.failed = false ∧
      s.permits level task.canWrite ≠ 0 ∧ io.Serves task.inputs ∧
      kWayMergeAsync2 io ⟨newIndexId, task.discardDeletedKeys⟩ s.nextFileId task.inputs = .ok out ∧
      t = s.commitTask cfg level idx task out.sst := by
  rw [partitionStep] at hstep
  split at hstep
  · cases hstep
  · next task htask =>
    split at hstep
    · cases hstep
    · next hguard =>
      push Not at hguard
      obtain ⟨hfailed, hpermit, hserves⟩ := hguard
      split at hstep
      · cases hstep
      · next out hmerge =>
        exact ⟨task, out, htask, by simpa using hfailed, hpermit, hserves, hmerge,
          (Option.some.inj hstep).symm⟩

theorem Inv.merged (h : Inv cfg p R s) (hR : LastOrder R) {newIndexId : ℕ}
    {task : CompactionTask K} {io : MergeIo K} {out : MergeOutput K}
    (ht : (s.tasks level)[idx]? = some task) (hio : io.Serves task.inputs)
    (hmerge : kWayMergeAsync2 io ⟨newIndexId, task.discardDeletedKeys⟩ s.nextFileId task.inputs =
      .ok out) :
    OutputOf task.inputs out.sst ∧ MergedFrom task.discardDeletedKeys task.inputs out ∧
      out.sst.id = s.nextFileId := by
  have hin := (h.tasks.inputs level task (mem_of_getElem? ht)).2.1
  have hM := h.levels.mergeable hR hin
  obtain ⟨hmerged, first, rest, o, -, rfl⟩ := kWayMergeAsync2_spec hM hio hmerge
  exact ⟨outputOf_merge hM hio hmerge, hmerged, rfl⟩

/-- A commit inside the last level puts its output behind SSTs it may follow in
the order `R`. -/
def CommitFits (cfg : SstManagerConfig) (R : Sst K → Sst K → Prop) (s : PartitionState K) :
    PartitionStep K → Prop
  | .commit level idx _ _ =>
      level + 1 = cfg.maxNumLevels → ∀ task, (s.tasks level)[idx]? = some task →
        ∀ out, OutputOf task.inputs out →
          ∀ Y ∈ erasedLevel s.levels level task.inputs level, R Y out
  | _ => True

theorem Inv.output_epoch_ne (h : Inv cfg p R s) (hR : LastOrder R) {task : CompactionTask K}
    {out Y : Sst K} (ht : (s.tasks level)[idx]? = some task) (hout : OutputOf task.inputs out)
    (hY : Y ∈ erasedLevel s.levels level task.inputs level) : Y.epoch ≠ out.epoch := by
  obtain ⟨I, hI, he⟩ := hout.epoch_mem
  obtain ⟨hYL, hYid⟩ := mem_erasedLevel.mp hY
  have hin := (h.tasks.inputs level task (mem_of_getElem? ht)).2.1
  intro heq
  obtain rfl : Y = I := inj_on_of_nodup_map
    (pairwise_map.mpr (h.levels.epochs hR level)) hYL (hin.subset hI) (heq.trans he)
  exact hYid rfl (mem_map_of_mem hI)

/-- **Every step of a partition keeps the invariant.** -/
theorem partitionStep_inv (hcfg : cfg.Valid) (hR : LastOrder R) (h : Inv cfg p R s)
    {a : PartitionStep K} (hfit : CommitFits cfg R s a)
    (hstep : partitionStep cfg p s a = some t) : Inv cfg p R t := by
  cases a with
  | push sst =>
    obtain ⟨hflushed, rfl⟩ := partitionStep_push hstep
    exact h.push hcfg.levels hR hflushed
  | snapshot =>
    obtain rfl := partitionStep_snapshot hstep
    exact h.takeSnapshot
  | launch compactAll =>
    obtain ⟨snap, hsnap, rfl⟩ := partitionStep_launch hstep
    exact (launch_rule hcfg (P := fun _ => True) (fun _ _ _ _ _ _ _ _ => trivial) h hsnap
      trivial).1
  | commit level idx newIndexId io =>
    obtain ⟨task, out, ht, -, hpermit, hio, hmerge, rfl⟩ := partitionStep_commit hstep
    obtain ⟨hout, -, hid⟩ := h.merged hR ht hio hmerge
    exact h.commit hcfg.levels hR ht hpermit hout hid.ge fun hl => hfit hl task ht out.sst hout
  | fail level idx =>
    obtain ⟨task, htask, rfl⟩ := partitionStep_fail hstep
    exact h.fail htask
  | persist =>
    cases hstep
    exact h.persist
  | reload =>
    cases hstep
    exact h.reload

end HedgeDB
