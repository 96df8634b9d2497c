/-
HedgeDB/Tombstones.lean

Tombstones are discarded only when nothing older exists.

A task may drop tombstones if it is the first of its level, writes to the
bottommost level, and `created` says that nothing is or will be there.  For
every configuration and every run, with failed merges and restarts, each task
launched with `discard_deleted_keys` keeps, until it finishes, what the decision
was made on: every SST outside its inputs is newer than its inputs
(`discard_only_when_nothing_older`).

Compaction inside the last level may leave that level out of order; here it is
only required to tell epochs apart.
-/
import HedgeDB.LevelOrder
import Mathlib.Data.List.Pairwise

namespace HedgeDB

open PartitionState List

variable {K : Type*} [LinearOrder K] {cfg : SstManagerConfig} {p : ℕ} {s t : PartitionState K}

/-- Different epochs: what holds in the last level in any case. -/
def EpochNe (Y X : Sst K) : Prop := Y.epoch ≠ X.epoch

omit [LinearOrder K] in
theorem lastOrder_epochNe : LastOrder (EpochNe (K := K)) :=
  ⟨fun _ _ h => h.1.ne, fun _ _ h => h⟩

variable {a : PartitionStep K}

theorem Inv.commitFits_epochNe (h : Inv cfg p EpochNe s) : CommitFits cfg EpochNe s a := by
  cases a with
  | commit level idx _ _ =>
    intro _ task ht out hout Y hY
    exact h.output_epoch_ne lastOrder_epochNe ht hout hY
  | _ => trivial

/-! ### Tasks that discard -/

/-- Every SST outside the inputs of a discarding task is newer than them. -/
def DiscardOk (s : PartitionState K) : Prop :=
  ∀ i, ∀ t ∈ s.tasks i, t.discardDeletedKeys = true →
    ∀ j, ∀ X ∈ s.levels j, X ∉ t.inputs → ∀ Y ∈ t.inputs, Older Y X

variable {level : ℕ}

omit [LinearOrder K] in
theorem canDiscardKeys_iff (hcfg : 1 ≤ cfg.maxNumLevels) {isFirst : Bool}
    (h : s.canDiscardKeys cfg level isFirst = true) :
    targetLevel cfg level = cfg.maxNumLevels - 1 ∧
      s.created (cfg.maxNumLevels - 1) = false ∧ cfg.maxNumLevels ≤ level + 2 := by
  have hlt : targetLevel cfg level < cfg.maxNumLevels := targetLevel_lt hcfg
  simp only [canDiscardKeys, decide_eq_true_eq] at h
  obtain ⟨⟨-, hbottom⟩, hcreated⟩ := h
  have htarget : targetLevel cfg level = cfg.maxNumLevels - 1 := by
    unfold targetLevel
    omega
  refine ⟨htarget, ?_, by omega⟩
  rw [← htarget]
  exact hcreated.resolve_left hlt.ne

variable {R : Sst K → Sst K → Prop}

/-- **The decision to discard is right**: at launch nothing outside the bucket is
older than it. -/
theorem DiscardOk.launchBucket (hcfg : 1 ≤ cfg.maxNumLevels) (h : Inv cfg p R s)
    (hd : DiscardOk s) {isFirst : Bool} {inputs : List (Sst K)} (hp : Picked s level inputs) :
    DiscardOk (s.launchBucket cfg level isFirst inputs) := by
  intro i t ht hdiscard j X hX hXt Y hY
  rcases launchBucket_tasks ht with hold | ⟨rfl, rfl⟩
  · exact hd i t hold hdiscard j X hX hXt Y hY
  · dsimp only at hdiscard hXt hY
    obtain ⟨htarget, hcreated, hbottom⟩ := canDiscardKeys_iff hcfg hdiscard
    have hYL : Y ∈ s.levels i := hp.levels.subset hY
    have hi := h.levels.lt_of_mem hYL
    -- no task was launched on this level since its target was last empty
    have hno : s.tasks i = [] := by
      by_contra hne
      exact absurd (h.tasks.created i hne) (by rw [htarget, hcreated]; simp)
    obtain ⟨rest, hrest⟩ := hp.initial
    have hlevel : s.levels i = inputs ++ rest := by
      rw [h.tasks.split i, inputsOf, hno, ← hrest]
      rfl
    have hsorted : (s.levels i).Pairwise Older := by
      by_cases hl : i + 1 < cfg.maxNumLevels
      · exact h.levels.within i hl
      · obtain rfl : i = cfg.maxNumLevels - 1 := by omega
        exact h.tasks.ordered hcreated
    rcases Nat.lt_trichotomy j i with hji | rfl | hji
    · exact h.levels.across j i hji X hX Y hYL
    · rw [hlevel] at hsorted
      have hXrest : X ∈ rest := by
        change X ∈ s.levels j at hX
        rw [hlevel] at hX
        exact (mem_append.mp hX).resolve_left hXt
      exact (pairwise_append.mp hsorted).2.2 Y hY X hXrest
    · -- below the inputs there is nothing
      have hj := h.levels.lt_of_mem (i := j) hX
      obtain rfl : j = cfg.maxNumLevels - 1 := by omega
      have := h.tasks.created_level _ (by omega) (ne_nil_of_mem hX)
      exact absurd (this.symm.trans hcreated) (by simp)

theorem Inv.not_mem_inputs (h : Inv cfg p R s) {i j : ℕ} {t t' : CompactionTask K}
    (ht : t ∈ s.tasks i) (ht' : t' ∈ s.tasks j) (hne : i ≠ j ∨ t ≠ t') {X : Sst K}
    (hX : X ∈ t'.inputs) : X ∉ t.inputs := by
  intro hXt
  have hXi := (h.tasks.inputs i t ht).2.1.subset hXt
  have hXj := (h.tasks.inputs j t' ht').2.1.subset hX
  by_cases hij : i = j
  · subst hij
    have hpw := (pairwise_flatMap.mp (h.tasks.disjoint i)).2
    have hsymm : Std.Symm fun a b : CompactionTask K =>
        ∀ x ∈ a.inputs, ∀ y ∈ b.inputs, x.id ≠ y.id :=
      ⟨fun a b hab x hx y hy => (hab y hy x hx).symm⟩
    exact hpw.forall ht ht' (hne.resolve_left fun hf => hf rfl) X hXt X hX rfl
  · exact h.levels.ids_ne i j hij X hXi X hXj rfl

theorem DiscardOk.commit (h : Inv cfg p R s) (hd : DiscardOk s) {idx : ℕ}
    {task : CompactionTask K} {out : Sst K} (ht : (s.tasks level)[idx]? = some task)
    (hpermit : s.permits level task.canWrite ≠ 0) (hout : OutputOf task.inputs out) :
    DiscardOk (s.commitTask cfg level idx task out) := by
  obtain ⟨rfl, rest, htasks⟩ := h.tasks.head_of_permit ht hpermit
  have htask : task ∈ s.tasks level := htasks ▸ mem_cons_self
  intro i t hti hdiscard j X hX hXt Y hY
  have htold := (commitTask_tasks_sublist htasks i).subset hti
  rcases mem_replaceInputs.mp hX with hX' | ⟨-, rfl⟩
  · exact hd i t htold hdiscard j X ((erasedLevel_sublist j).subset hX') hXt Y hY
  · refine hout.newer fun I hI => ?_
    have hIL := (h.tasks.inputs level task htask).2.1.subset hI
    refine hd i t htold hdiscard level I hIL (h.not_mem_inputs htold htask ?_ hI) Y hY
    -- the committing task has left the list
    refine or_iff_not_imp_left.mpr fun hil heq => ?_
    obtain rfl : i = level := not_not.mp hil
    rw [commitTask_tasks htasks, if_pos rfl, heq] at hti
    have hdisjoint := h.tasks.disjoint i
    rw [inputsOf, htasks, flatMap_cons] at hdisjoint
    exact (pairwise_append.mp hdisjoint).2.2 I hI I
      (mem_flatMap.mpr ⟨task, hti, hI⟩) rfl

theorem DiscardOk.step (hcfg : cfg.Valid) (hR : LastOrder R) (h : Inv cfg p R s)
    (hd : DiscardOk s) (hstep : partitionStep cfg p s a = some t) : DiscardOk t := by
  cases a with
  | push sst =>
    obtain ⟨hflushed, rfl⟩ := partitionStep_push hstep
    intro i t ht hdiscard j X hX hXt Y hY
    have hYL := (h.tasks.inputs i t ht).2.1.subset hY
    change X ∈ Function.update s.levels 0 _ j at hX
    rw [Function.update_apply] at hX
    split at hX
    · next hj =>
      rcases mem_append.mp hX with hX' | hX'
      · exact hd i t ht hdiscard 0 X hX' hXt Y hY
      · obtain rfl := mem_singleton.mp hX'
        exact hflushed.newer i (h.levels.lt_of_mem hYL) Y hYL
    · exact hd i t ht hdiscard j X hX hXt Y hY
  | snapshot =>
    obtain rfl := partitionStep_snapshot hstep
    exact hd
  | launch compactAll =>
    obtain ⟨snap, hsnap, rfl⟩ := partitionStep_launch hstep
    exact (launch_rule hcfg (P := DiscardOk)
      (fun u level isFirst inputs hI hd hp _ => hd.launchBucket hcfg.levels hI hp)
      h hsnap hd).2
  | commit level idx newIndexId io =>
    obtain ⟨task, out, ht, -, hpermit, hio, hmerge, rfl⟩ := partitionStep_commit hstep
    exact hd.commit h ht hpermit (h.merged hR ht hio hmerge).1
  | fail level idx =>
    obtain ⟨task, htask, rfl⟩ := partitionStep_fail hstep
    -- only the `failed` mark changes
    intro i t ht hdiscard j X hX hXt Y hY
    have hmem : (t.inputs, t.discardDeletedKeys) ∈
        (s.tasks i).map fun t => (t.inputs, t.discardDeletedKeys) := by
      rw [← failTask_map htask rfl i]
      exact mem_map_of_mem ht
    obtain ⟨u, hu, he⟩ := mem_map.mp hmem
    obtain ⟨hinputs, hflag⟩ := Prod.mk.inj he
    rw [← hinputs] at hXt hY
    exact hd i u hu (hflag.trans hdiscard) j X hX hXt Y hY
  | persist =>
    cases hstep
    exact hd
  | reload =>
    cases hstep
    intro i t ht
    cases ht

/-! ### Whole runs -/

/-- The invariant of every run, whatever fails and whenever it restarts. -/
structure DiscardInv (cfg : SstManagerConfig) (p : ℕ) (s : PartitionState K) : Prop where
  inv : Inv cfg p EpochNe s
  discard : DiscardOk s

theorem DiscardInv.step (hcfg : cfg.Valid) (h : DiscardInv cfg p s)
    (hstep : partitionStep cfg p s a = some t) : DiscardInv cfg p t :=
  ⟨partitionStep_inv hcfg lastOrder_epochNe h.inv h.inv.commitFits_epochNe hstep,
    h.discard.step hcfg lastOrder_epochNe h.inv hstep⟩

theorem partitionRun_discardInv (hcfg : cfg.Valid) {as : List (PartitionStep K)}
    (hrun : Run.exec (partitionStep cfg p) {} as = some t) : DiscardInv cfg p t :=
  Run.exec_invariant (C := fun _ _ => True) (fun _ _ _ h _ hstep => h.step hcfg hstep)
    ⟨inv_initial, fun i t ht => by cases ht⟩ (Run.allSteps_true _ _) hrun

/-- With two levels the first merge of level 0 may discard. -/
def exampleDiscardRun : List (PartitionStep ℕ) :=
  [ .push (exampleSst 0 0 [⟨1, 0, [1, 10]⟩]), .push (exampleSst 1 1 [⟨1, 1, [2]⟩]),
    .snapshot, .launch false, .push (exampleSst 2 2 [⟨1, 2, [1, 12]⟩]) ]

end HedgeDB
