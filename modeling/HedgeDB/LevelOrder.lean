/-
HedgeDB/LevelOrder.lean

Level order is recency order.

As long as merges succeed and nothing is compacted inside the last level, every
reachable partition has its levels sorted by epoch, the SSTs under compaction
at the old end of each level, and everything in a lower level older than
everything above.  Reading the levels by position and choosing by epoch are
then the same (`level_order_is_recency_order`).
-/
import HedgeDB.PartitionInvariant

namespace HedgeDB

open PartitionState

variable {K : Type*} [LinearOrder K] {cfg : SstManagerConfig} {p : ℕ} {s t : PartitionState K}

/-- The steps of a run in which merges succeed, the process does not restart and
no round picks from the last level. -/
def UpperStep (cfg : SstManagerConfig) (s : PartitionState K) : PartitionStep K → Prop
  | .launch compactAll =>
      ∀ snap ∈ s.snapshot, s.pickBuckets cfg compactAll snap (cfg.maxNumLevels - 1) = []
  | .fail _ _ => False
  | .reload => False
  | _ => True

instance (cfg : SstManagerConfig) (s : PartitionState K) :
    (a : PartitionStep K) → Decidable (UpperStep cfg s a)
  | .launch compactAll => inferInstanceAs (Decidable
      (∀ snap ∈ s.snapshot, s.pickBuckets cfg compactAll snap (cfg.maxNumLevels - 1) = []))
  | .fail _ _ | .reload => isFalse id
  | .push _ | .snapshot | .commit _ _ _ _ | .persist => isTrue trivial

/-- The invariant of such runs: no task on the last level, and an SST that
cannot be picked is under compaction. -/
structure UpperInv (cfg : SstManagerConfig) (p : ℕ) (s : PartitionState K) : Prop where
  inv : Inv cfg p Older s
  no_last : s.tasks (cfg.maxNumLevels - 1) = []
  states : ∀ id, s.compactionState id = .pickableForCompaction ∨
    s.compactionState id = .inCompaction

theorem UpperInv.commitFits (h : UpperInv cfg p s) {a : PartitionStep K} :
    CommitFits cfg Older s a := by
  cases a with
  | commit level idx _ _ =>
    intro hl task ht
    obtain rfl : level = cfg.maxNumLevels - 1 := by omega
    rw [h.no_last] at ht
    cases ht
  | _ => trivial

omit [LinearOrder K] in
theorem launchBucket_states {level : ℕ} {isFirst : Bool} {inputs : List (Sst K)}
    (h : ∀ id, s.compactionState id = .pickableForCompaction ∨ s.compactionState id = .inCompaction)
    (id : ℕ) :
    (s.launchBucket cfg level isFirst inputs).compactionState id = .pickableForCompaction ∨
      (s.launchBucket cfg level isFirst inputs).compactionState id = .inCompaction := by
  change s.setCompactionState inputs .inCompaction id = _ ∨
    s.setCompactionState inputs .inCompaction id = _
  rw [setCompactionState]
  split
  · rcases h id with h' | h' <;> rw [h'] <;> decide
  · exact h id

theorem UpperInv.launch (hcfg : cfg.Valid) (h : UpperInv cfg p s) {compactAll : Bool}
    {snap : ℕ → List (Sst K)} (hsnap : s.snapshot = some snap)
    (hnone : s.pickBuckets cfg compactAll snap (cfg.maxNumLevels - 1) = []) :
    UpperInv cfg p (s.launchCompactionTasks cfg compactAll snap) := by
  obtain ⟨hinv, hno, hstates⟩ := launch_rule hcfg
    (P := fun u => u.tasks (cfg.maxNumLevels - 1) = [] ∧
      ∀ id, u.compactionState id = .pickableForCompaction ∨ u.compactionState id = .inCompaction)
    (fun u level isFirst inputs _ hu _ hmem => by
      have hne : cfg.maxNumLevels - 1 ≠ level := by
        rintro rfl
        rw [hnone] at hmem
        cases hmem
      exact ⟨by simpa [launchBucket, hne] using hu.1, launchBucket_states hu.2⟩)
    h.inv hsnap ⟨h.no_last, h.states⟩
  exact ⟨hinv, hno, hstates⟩

theorem UpperInv.step (hcfg : cfg.Valid) (h : UpperInv cfg p s) {a : PartitionStep K}
    (ha : UpperStep cfg s a) (hstep : partitionStep cfg p s a = some t) : UpperInv cfg p t := by
  have hinv : Inv cfg p Older t :=
    partitionStep_inv hcfg lastOrder_older h.inv h.commitFits hstep
  cases a with
  | push sst =>
    obtain ⟨-, rfl⟩ := partitionStep_push hstep
    exact ⟨hinv, h.no_last, h.states⟩
  | snapshot =>
    obtain rfl := partitionStep_snapshot hstep
    exact ⟨hinv, h.no_last, h.states⟩
  | launch compactAll =>
    obtain ⟨snap, hsnap, rfl⟩ := partitionStep_launch hstep
    exact h.launch hcfg hsnap (ha snap hsnap)
  | commit level idx newIndexId io =>
    obtain ⟨task, out, ht, -, -, -, -, rfl⟩ := partitionStep_commit hstep
    have hne : cfg.maxNumLevels - 1 ≠ level := by
      rintro rfl
      rw [h.no_last] at ht
      cases ht
    exact ⟨hinv, by simpa [commitTask, hne] using h.no_last, h.states⟩
  | fail level idx => exact ha.elim
  | persist =>
    cases hstep
    exact ⟨hinv, h.no_last, h.states⟩
  | reload => exact ha.elim

theorem upperRun_inv (hcfg : cfg.Valid) {as : List (PartitionStep K)}
    (hall : Run.AllSteps (partitionStep cfg p) (UpperStep cfg) {} as)
    (hrun : Run.exec (partitionStep cfg p) {} as = some t) : UpperInv cfg p t :=
  Run.exec_invariant (fun _ _ _ h ha hstep => h.step hcfg ha hstep)
    ⟨inv_initial, rfl, fun _ => .inl rfl⟩ hall hrun

theorem UpperInv.inCompaction_first (h : UpperInv cfg p s) (i : ℕ) :
    ∃ merging rest, s.levels i = merging ++ rest ∧
      (∀ X ∈ merging, s.compactionState X.id = .inCompaction) ∧
      ∀ X ∈ rest, s.compactionState X.id = .pickableForCompaction := by
  refine ⟨s.inputsOf i, s.pickables i, h.inv.tasks.split i, fun X hX => ?_, fun X hX => ?_⟩
  · obtain ⟨t, ht, hXt⟩ := List.mem_flatMap.mp hX
    exact (h.states X.id).resolve_left
      (by simpa [pickable] using (h.inv.tasks.inputs i t ht).2.2 X hXt)
  · simpa [pickable] using (List.mem_filter.mp hX).2

/-- In a partition in order, the lookup by position returns the version of
highest epoch. -/
theorem LevelsOk.lookup_newest {L : ℕ → List (Sst K)} (h : LevelsOk cfg p Older L)
    {probe : Sst K → K → Bool} (hprobe : NoFalseNegatives probe) (k : K) :
    (∀ r, Newest (readOrder ((List.range cfg.maxNumLevels).map L)) r → r.key = k →
      lookupAsync probe ((List.range cfg.maxNumLevels).map L) k = .ok r.decode) ∧
    ((¬ ∃ r, Newest (readOrder ((List.range cfg.maxNumLevels).map L)) r ∧ r.key = k) →
      lookupAsync probe ((List.range cfg.maxNumLevels).map L) k =
        .error { msg := "Key not found", code := .keyNotFound }) := by
  have hdec : ∀ X ∈ readOrder ((List.range cfg.maxNumLevels).map L), X.AllDecodable :=
    fun X hX => (h.readOrder_sst hX).2.2
  have hsorted : ∀ X ∈ readOrder ((List.range cfg.maxNumLevels).map L), X.Sorted :=
    fun X hX => (h.readOrder_sst hX).2.1
  have hnewest := fun {r} => findSome_eq_some_iff (k := k) (r := r)
    (h.readOrder_pairwise.imp fun hXY _ _ _ _ _ => hXY.1) hsorted
  rw [lookupAsync_eq hprobe k hdec]
  constructor
  · intro r hr hk
    rw [hnewest.mpr ⟨hr, hk⟩]
  · intro hnone
    rcases e : (readOrder ((List.range cfg.maxNumLevels).map L)).findSome?
      fun X => X.find k with - | r
    · rw [e]
    · exact absurd ⟨r, hnewest.mp e⟩ hnone

/-- **Level order is recency order**, in every state reached by flushes,
compaction rounds and commits in the order of the permission chains. -/
theorem level_order_is_recency_order (cfg : SstManagerConfig) (hcfg : cfg.Valid) (p : ℕ)
    (as : List (PartitionStep K)) (s : PartitionState K)
    (hall : Run.AllSteps (partitionStep cfg p) (UpperStep cfg) {} as)
    (hrun : Run.exec (partitionStep cfg p) {} as = some s) :
    (∀ i, (s.levels i).Pairwise fun X Y => X.epoch < Y.epoch) ∧
    (∀ i, ∃ merging rest, s.levels i = merging ++ rest ∧
      (∀ X ∈ merging, s.compactionState X.id = .inCompaction) ∧
      ∀ X ∈ rest, s.compactionState X.id = .pickableForCompaction) ∧
    (∀ i j, i < j → ∀ X ∈ s.levels i, ∀ Y ∈ s.levels j,
      Y.epoch < X.epoch ∧ ∀ r ∈ Y.entries, ∀ r' ∈ X.entries, r.stamp < r'.stamp) ∧
    ∀ probe : Sst K → K → Bool, NoFalseNegatives probe → ∀ k,
      (∀ r, Newest (readOrder (s.levelList cfg)) r → r.key = k →
        lookupAsync probe (s.levelList cfg) k = .ok r.decode) ∧
      ((¬ ∃ r, Newest (readOrder (s.levelList cfg)) r ∧ r.key = k) →
        lookupAsync probe (s.levelList cfg) k =
          .error { msg := "Key not found", code := .keyNotFound }) := by
  have h := upperRun_inv hcfg hall hrun
  refine ⟨fun i => (h.inv.levels.pairwise i).imp fun hXY => hXY.1, h.inCompaction_first,
    h.inv.levels.across, fun probe hprobe k => h.inv.levels.lookup_newest hprobe k⟩

def exampleSst (id epoch : ℕ) (entries : List (Record K)) : Sst K :=
  { id, indexId := epoch, epoch, upperBound := 0, maxSeqNr := 0, entries }

/-- Two flushes, a round that merges them, a flush while the merge runs, and the
commit. -/
def exampleRun : List (PartitionStep ℕ) :=
  [ .push (exampleSst 0 0 [⟨1, 0, [1, 10]⟩]), .push (exampleSst 1 1 [⟨1, 1, [1, 11]⟩]),
    .snapshot, .launch false, .push (exampleSst 2 2 [⟨1, 2, [1, 12]⟩]), .commit 0 0 3 exampleIo ]

theorem level_order_is_recency_order_example :
    ∃ s, Run.exec (partitionStep ⟨3, 2, 4⟩ 0) {} exampleRun = some s ∧
      (s.levels 1).length = 1 ∧ ∀ i, (s.levels i).Pairwise fun X Y => X.epoch < Y.epoch := by
  have hall : Run.AllSteps (partitionStep ⟨3, 2, 4⟩ 0) (UpperStep ⟨3, 2, 4⟩) {} exampleRun := by
    decide
  have hrun : ∀ s, Run.exec (partitionStep ⟨3, 2, 4⟩ 0) {} exampleRun = some s →
      ∀ i, (s.levels i).Pairwise fun X Y => X.epoch < Y.epoch :=
    fun s hs => (level_order_is_recency_order ⟨3, 2, 4⟩ ⟨by decide, by decide, by decide⟩ 0
      exampleRun s hall hs).1
  have hsome : ((Run.exec (partitionStep ⟨3, 2, 4⟩ 0) {} exampleRun).map
      fun s => (s.levels 1).length) = some 1 := by decide
  obtain ⟨s, hs, hlen⟩ := Option.map_eq_some_iff.mp hsome
  exact ⟨s, hs, hlen, hrun s hs⟩

end HedgeDB
