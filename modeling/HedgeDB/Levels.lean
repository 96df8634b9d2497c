/-
HedgeDB/Levels.lean

The order of SSTs in the levels of a partition.

`LevelsOk cfg p R L` says that the level tree `L` of partition `p` is in order:
everything in a lower level is older than everything in a higher one, each
level but the last is sorted from old to new, and the last level is sorted by a
relation `R` the caller chooses.  `R` is `Older` as long as nothing is compacted
inside the last level, and weaker afterwards.

The two updates a partition knows keep the order: appending a newer SST to
level 0 (`LevelsOk.push`) and replacing inputs of one level by their merge at the
end of the next (`LevelsOk.commit`).
-/
import HedgeDB.Compaction
import Mathlib.Data.List.Nodup

namespace HedgeDB

open List Function

variable {K : Type*} [LinearOrder K]

/-! ### The output of a merge -/

/-- What the level order needs to know about the output of a merge. -/
structure OutputOf (inputs : List (Sst K)) (out : Sst K) : Prop where
  sorted : out.Sorted
  entries : ∀ r ∈ out.entries, ∃ I ∈ inputs, r ∈ I.entries
  epoch_le : ∀ I ∈ inputs, out.epoch ≤ I.epoch
  epoch_mem : ∃ I ∈ inputs, out.epoch = I.epoch
  partition : ∃ I ∈ inputs, out.upperBound = I.upperBound

section Output

variable {inputs : List (Sst K)} {out X : Sst K}

theorem outputOf_merge {io : MergeIo K} {config : MergeConfig} {fileId : ℕ}
    {out : MergeOutput K} (h : Mergeable inputs) (hio : io.Serves inputs)
    (hok : kWayMergeAsync2 io config fileId inputs = .ok out) : OutputOf inputs out.sst := by
  obtain ⟨hmerged, first, rest, o, rfl, rfl⟩ := kWayMergeAsync2_spec h hio hok
  obtain ⟨hle, hmem⟩ := outputEpoch_spec first rest
  refine ⟨hmerged.sorted, fun r hr => ?_, hle, hmem, first, mem_cons_self, rfl⟩
  obtain ⟨⟨I, hI, hrI, -⟩, -⟩ := (hmerged.mem_iff r).mp hr
  exact ⟨I, hI, hrI⟩

theorem OutputOf.older (h : OutputOf inputs out) (hX : ∀ I ∈ inputs, Older I X) :
    Older out X := by
  obtain ⟨I, hI, he⟩ := h.epoch_mem
  refine ⟨he ▸ (hX I hI).1, fun r hr r' hr' => ?_⟩
  obtain ⟨J, hJ, hrJ⟩ := h.entries r hr
  exact (hX J hJ).2 r hrJ r' hr'

theorem OutputOf.newer (h : OutputOf inputs out) (hX : ∀ I ∈ inputs, Older X I) :
    Older X out := by
  obtain ⟨I, hI, he⟩ := h.epoch_mem
  refine ⟨he ▸ (hX I hI).1, fun r hr r' hr' => ?_⟩
  obtain ⟨J, hJ, hrJ⟩ := h.entries r' hr'
  exact (hX J hJ).2 r hr r' hrJ

theorem OutputOf.decodable (h : OutputOf inputs out) (hI : ∀ I ∈ inputs, I.AllDecodable) :
    out.AllDecodable := by
  intro r hr
  obtain ⟨J, hJ, hrJ⟩ := h.entries r hr
  exact hI J hJ r hrJ

end Output

/-! ### Levels in order -/

/-- The orders the last level may be kept in: appending something newer keeps
them, and they tell epochs apart. -/
structure LastOrder (R : Sst K → Sst K → Prop) : Prop where
  of_older : ∀ Y X, Older Y X → R Y X
  epoch_ne : ∀ Y X, R Y X → Y.epoch ≠ X.epoch

omit [LinearOrder K] in
theorem lastOrder_older : LastOrder (Older (K := K)) :=
  ⟨fun _ _ h => h, fun _ _ h => h.1.ne⟩

structure LevelsOk (cfg : SstManagerConfig) (p : ℕ) (R : Sst K → Sst K → Prop)
    (L : ℕ → List (Sst K)) : Prop where
  beyond : ∀ i, cfg.maxNumLevels ≤ i → L i = []
  ids : ∀ i, (L i).Pairwise fun X Y => X.id ≠ Y.id
  ids_ne : ∀ i j, i ≠ j → ∀ X ∈ L i, ∀ Y ∈ L j, X.id ≠ Y.id
  sst : ∀ i, ∀ X ∈ L i, X.upperBound = p ∧ X.Sorted ∧ X.AllDecodable
  across : ∀ i j, i < j → ∀ X ∈ L i, ∀ Y ∈ L j, Older Y X
  within : ∀ i, i + 1 < cfg.maxNumLevels → (L i).Pairwise Older
  last : (L (cfg.maxNumLevels - 1)).Pairwise R

variable {X : Sst K} {i : ℕ}

namespace LevelsOk

variable {cfg : SstManagerConfig} {p : ℕ} {R : Sst K → Sst K → Prop} {L : ℕ → List (Sst K)}

theorem empty : LevelsOk cfg p R fun _ => ([] : List (Sst K)) :=
  ⟨fun _ _ => rfl, fun _ => Pairwise.nil, by simp, by simp, by simp,
    fun _ _ => Pairwise.nil, Pairwise.nil⟩

theorem lt_of_mem (h : LevelsOk cfg p R L) (hX : X ∈ L i) : i < cfg.maxNumLevels := by
  by_contra hi
  rw [h.beyond i (not_lt.mp hi)] at hX
  cases hX

theorem epochs (h : LevelsOk cfg p R L) (hR : LastOrder R) (i : ℕ) :
    (L i).Pairwise fun X Y => X.epoch ≠ Y.epoch := by
  rcases Nat.lt_trichotomy (i + 1) cfg.maxNumLevels with hi | hi | hi
  · exact (h.within i hi).imp fun hXY => hXY.1.ne
  · obtain rfl : i = cfg.maxNumLevels - 1 := by omega
    exact h.last.imp fun hXY => hR.epoch_ne _ _ hXY
  · rw [h.beyond i (by omega)]
    exact Pairwise.nil

theorem mergeable (h : LevelsOk cfg p R L) (hR : LastOrder R) {inputs : List (Sst K)}
    (hin : inputs.Sublist (L i)) : Mergeable inputs :=
  ⟨⟨fun X hX Y hY => (h.sst i X (hin.subset hX)).1.trans (h.sst i Y (hin.subset hY)).1.symm,
    fun X hX => (h.sst i X (hin.subset hX)).2.1, fun X hX => (h.sst i X (hin.subset hX)).2.2⟩,
    (h.epochs hR i).sublist hin⟩

theorem push (h : LevelsOk cfg p R L) (hcfg : 1 ≤ cfg.maxNumLevels) (hR : LastOrder R)
    {sst : Sst K} (hsst : sst.upperBound = p ∧ sst.Sorted ∧ sst.AllDecodable)
    (hfresh : ∀ i, ∀ X ∈ L i, X.id < sst.id) (hnewer : ∀ i, ∀ Y ∈ L i, Older Y sst) :
    LevelsOk cfg p R (update L 0 (L 0 ++ [sst])) := by
  have hmem : ∀ {i X}, X ∈ update L 0 (L 0 ++ [sst]) i → X ∈ L i ∨ i = 0 ∧ X = sst := by
    intro i X hX
    rcases Nat.eq_zero_or_pos i with rfl | hi
    · rw [update_self] at hX
      rcases mem_append.mp hX with hX' | hX'
      · exact .inl hX'
      · exact .inr ⟨rfl, mem_singleton.mp hX'⟩
    · rw [update_of_ne hi.ne'] at hX
      exact .inl hX
  have happend : ∀ {Q : Sst K → Sst K → Prop} {i : ℕ}, (L i).Pairwise Q →
      (∀ Y ∈ L i, Q Y sst) → (update L 0 (L 0 ++ [sst]) i).Pairwise Q := by
    intro Q i hpw hlast
    rcases Nat.eq_zero_or_pos i with rfl | hi
    · rw [update_self]
      refine pairwise_append.mpr ⟨hpw, by simp, fun Y hY Z hZ => ?_⟩
      obtain rfl := mem_singleton.mp hZ
      exact hlast Y hY
    · rwa [update_of_ne hi.ne']
  refine ⟨?_, ?_, ?_, ?_, ?_, ?_, ?_⟩
  · intro i hi
    rw [update_of_ne (by omega)]
    exact h.beyond i hi
  · exact fun i => happend (h.ids i) fun Y hY => (hfresh i Y hY).ne
  · intro i j hij X hX Y hY
    rcases hmem hX with hX' | ⟨rfl, rfl⟩ <;> rcases hmem hY with hY' | ⟨rfl, rfl⟩
    · exact h.ids_ne i j hij X hX' Y hY'
    · exact (hfresh i X hX').ne
    · exact (hfresh j Y hY').ne'
    · exact absurd rfl hij
  · intro i X hX
    rcases hmem hX with hX' | ⟨rfl, rfl⟩
    · exact h.sst i X hX'
    · exact hsst
  · intro i j hij X hX Y hY
    rcases hmem hY with hY' | ⟨rfl, rfl⟩
    · rcases hmem hX with hX' | ⟨rfl, rfl⟩
      · exact h.across i j hij X hX' Y hY'
      · exact hnewer j Y hY'
    · exact absurd hij (Nat.not_lt_zero i)
  · exact fun i hi => happend (h.within i hi) fun Y hY => hnewer i Y hY
  · exact happend h.last fun Y hY => hR.of_older _ _ (hnewer _ Y hY)

end LevelsOk

/-! ### The level update of a commit -/

section Replace

open PartitionState

variable {cfg : SstManagerConfig} {L : ℕ → List (Sst K)} {level : ℕ} {inputs : List (Sst K)}
  {out : Sst K}

/-- What a commit leaves of level `i`, before the output is appended. -/
def erasedLevel (L : ℕ → List (Sst K)) (level : ℕ) (inputs : List (Sst K)) (i : ℕ) :
    List (Sst K) :=
  if i = level then (L i).filter fun X => X.id ∉ inputs.map Sst.id else L i

section

omit [LinearOrder K]

theorem replaceInputs_eq (i : ℕ) :
    replaceInputs cfg L level inputs out i =
      erasedLevel L level inputs i ++ if i = targetLevel cfg level then [out] else [] := by
  have herase : ∀ j, update L level
      ((L level).filter fun X => X.id ∉ inputs.map Sst.id) j = erasedLevel L level inputs j := by
    intro j
    by_cases hj : j = level
    · subst hj
      rw [update_self, erasedLevel, if_pos rfl]
    · rw [update_of_ne hj, erasedLevel, if_neg hj]
  rw [replaceInputs]
  by_cases hi : i = targetLevel cfg level
  · subst hi
    rw [update_self, if_pos rfl, herase]
  · rw [update_of_ne hi, if_neg hi, append_nil, herase]

theorem erasedLevel_sublist (i : ℕ) : (erasedLevel L level inputs i).Sublist (L i) := by
  rw [erasedLevel]
  split
  · exact filter_sublist
  · exact Sublist.refl _

theorem mem_erasedLevel :
    X ∈ erasedLevel L level inputs i ↔
      X ∈ L i ∧ (i = level → X.id ∉ inputs.map Sst.id) := by
  rw [erasedLevel]
  split
  · next h => simp [h]
  · next h => simp [h]

theorem mem_replaceInputs :
    X ∈ replaceInputs cfg L level inputs out i ↔
      X ∈ erasedLevel L level inputs i ∨ i = targetLevel cfg level ∧ X = out := by
  rw [replaceInputs_eq, mem_append]
  refine or_congr_right ?_
  split
  · next h => simp [h]
  · next h => simp [h]

theorem pairwise_replaceInputs {Q : Sst K → Sst K → Prop} (hQ : (L i).Pairwise Q)
    (hout : i = targetLevel cfg level → ∀ Y ∈ erasedLevel L level inputs i, Q Y out) :
    (replaceInputs cfg L level inputs out i).Pairwise Q := by
  rw [replaceInputs_eq]
  split
  · next hi =>
    refine pairwise_append.mpr ⟨hQ.sublist (erasedLevel_sublist i), by simp, ?_⟩
    intro Y hY Z hZ
    obtain rfl := mem_singleton.mp hZ
    exact hout hi Y hY
  · rw [append_nil]
    exact hQ.sublist (erasedLevel_sublist i)

theorem targetLevel_lt (hcfg : 1 ≤ cfg.maxNumLevels) : targetLevel cfg level < cfg.maxNumLevels := by
  unfold targetLevel
  omega

end

/-- **A commit keeps the levels in order.**  Outside the last level the inputs
must be older than what stays in their level; inside the last level the output
must fit behind what stays. -/
theorem LevelsOk.commit {p : ℕ} {R : Sst K → Sst K → Prop} (h : LevelsOk cfg p R L)
    (hcfg : 1 ≤ cfg.maxNumLevels) (hR : LastOrder R)
    (hin : inputs.Sublist (L level)) (hout : OutputOf inputs out)
    (hfresh : ∀ i, ∀ X ∈ L i, X.id < out.id)
    (hnot : level + 1 < cfg.maxNumLevels →
      ∀ X ∈ erasedLevel L level inputs level, ∀ I ∈ inputs, Older I X)
    (hlast : level + 1 = cfg.maxNumLevels → ∀ Y ∈ erasedLevel L level inputs level, R Y out) :
    LevelsOk cfg p R (replaceInputs cfg L level inputs out) := by
  obtain ⟨I₀, hI₀, -⟩ := hout.epoch_mem
  have hlevel : level < cfg.maxNumLevels := h.lt_of_mem (hin.subset hI₀)
  have hmemL : ∀ {i X}, X ∈ erasedLevel L level inputs i → X ∈ L i :=
    fun hX => (mem_erasedLevel.mp hX).1
  -- what lies below the target is older than the output
  have hbelow : ∀ j, level < j → ∀ Y ∈ L j, Older Y out :=
    fun j hj Y hY => hout.newer fun I hI => h.across level j hj I (hin.subset hI) Y hY
  -- what lies above it, or stays behind above it, is newer
  have habove : ∀ i, i < targetLevel cfg level →
      ∀ X ∈ erasedLevel L level inputs i, Older out X := by
    intro i hi X hX
    refine hout.older fun I hI => ?_
    have hile : i ≤ level := by unfold targetLevel at hi; omega
    rcases Nat.lt_or_eq_of_le hile with hlt | rfl
    · exact h.across i level hlt X (hmemL hX) I (hin.subset hI)
    · exact hnot (by unfold targetLevel at hi; omega) X hX I hI
  -- at the target itself
  have hat : targetLevel cfg level ≠ level → ∀ Y ∈ L (targetLevel cfg level), Older Y out :=
    fun hne Y hY => hbelow _ (by unfold targetLevel at hne ⊢; omega) Y hY
  refine ⟨?_, ?_, ?_, ?_, ?_, ?_, ?_⟩
  · intro i hi
    have hempty := h.beyond i hi
    rw [replaceInputs_eq, if_neg (((targetLevel_lt hcfg).trans_le hi).ne'),
      append_nil, eq_nil_iff_forall_not_mem]
    intro X hX
    simpa [hempty] using hmemL hX
  · exact fun i => pairwise_replaceInputs (h.ids i) fun _ Y hY => (hfresh i Y (hmemL hY)).ne
  · intro i j hij X hX Y hY
    rcases mem_replaceInputs.mp hX with hX' | ⟨rfl, rfl⟩ <;>
      rcases mem_replaceInputs.mp hY with hY' | ⟨rfl, rfl⟩
    · exact h.ids_ne i j hij X (hmemL hX') Y (hmemL hY')
    · exact (hfresh i X (hmemL hX')).ne
    · exact (hfresh j Y (hmemL hY')).ne'
    · exact absurd rfl hij
  · intro i X hX
    rcases mem_replaceInputs.mp hX with hX' | ⟨-, rfl⟩
    · exact h.sst i X (hmemL hX')
    · obtain ⟨I, hI, hpart⟩ := hout.partition
      exact ⟨hpart.trans (h.sst level I (hin.subset hI)).1, hout.sorted,
        hout.decodable fun J hJ => (h.sst level J (hin.subset hJ)).2.2⟩
  · intro i j hij X hX Y hY
    rcases mem_replaceInputs.mp hX with hX' | ⟨rfl, rfl⟩ <;>
      rcases mem_replaceInputs.mp hY with hY' | ⟨rfl, rfl⟩
    · exact h.across i j hij X (hmemL hX') Y (hmemL hY')
    · exact habove i hij X hX'
    · exact hbelow j (by unfold targetLevel at hij; omega) Y (hmemL hY')
    · exact absurd hij (lt_irrefl _)
  · intro i hi
    refine pairwise_replaceInputs (h.within i hi) fun hit Y hY => ?_
    subst hit
    exact hat (by unfold targetLevel at hi ⊢; omega) Y (hmemL hY)
  · refine pairwise_replaceInputs h.last fun hit Y hY => ?_
    by_cases hl : level + 1 = cfg.maxNumLevels
    · obtain rfl : cfg.maxNumLevels - 1 = level := by omega
      exact hlast hl Y hY
    · rw [hit] at hY
      exact hR.of_older _ _ (hat (by unfold targetLevel; omega) Y (hmemL hY))

end Replace

/-! ### Reading the levels -/

variable {r : Record K} {k : K}

theorem Sst.find_eq_some_iff (h : X.Sorted) : X.find k = some r ↔ r ∈ X.entries ∧ r.key = k :=
  KeyedList.lookup_eq_some_iff h

theorem Sst.find_eq_none_iff : X.find k = none ↔ ∀ r ∈ X.entries, r.key ≠ k :=
  KeyedList.lookup_eq_none_iff

/-- Two SSTs that share a key have their epochs in this order. -/
def KeyEpochLt (Y X : Sst K) : Prop :=
  ∀ r ∈ Y.entries, ∀ r' ∈ X.entries, r.key = r'.key → Y.epoch < X.epoch

theorem findSome_eq_some_iff {l : List (Sst K)} (hl : l.Pairwise fun X Y => KeyEpochLt Y X)
    (hs : ∀ X ∈ l, X.Sorted) :
    (l.findSome? fun X => X.find k) = some r ↔ Newest l r ∧ r.key = k := by
  induction l with
  | nil => simp [Newest]
  | cons X l ih =>
    obtain ⟨hX, hl'⟩ := pairwise_cons.mp hl
    have hXs := hs X mem_cons_self
    rw [findSome?_cons]
    rcases e : X.find k with - | r'
    · -- `X` does not have the key
      have hmiss := Sst.find_eq_none_iff.mp e
      rw [ih hl' fun Y hY => hs Y (mem_cons_of_mem _ hY)]
      refine and_congr_left fun hk => ?_
      constructor
      · rintro ⟨Y, hY, hr, hmax⟩
        refine ⟨Y, mem_cons_of_mem _ hY, hr, fun Z hZ r' hr' hk' => ?_⟩
        rcases mem_cons.mp hZ with rfl | hZ'
        · exact absurd (hk'.trans hk) (hmiss r' hr')
        · exact hmax Z hZ' r' hr' hk'
      · rintro ⟨Y, hY, hr, hmax⟩
        rcases mem_cons.mp hY with rfl | hY'
        · exact absurd hk (hmiss r hr)
        · exact ⟨Y, hY', hr, fun Z hZ => hmax Z (mem_cons_of_mem _ hZ)⟩
    · -- `X` has it, and is the newest
      obtain ⟨hr', hk'⟩ := (Sst.find_eq_some_iff hXs).mp e
      constructor
      · rintro ⟨⟩
        refine ⟨⟨X, mem_cons_self, hr', fun Z hZ r'' hr'' hk'' => ?_⟩, hk'⟩
        rcases mem_cons.mp hZ with rfl | hZ'
        · exact le_rfl
        · exact (hX Z hZ' r'' hr'' _ hr' hk'').le
      · rintro ⟨⟨Y, hY, hr, hmax⟩, hk⟩
        rcases mem_cons.mp hY with rfl | hY'
        · exact e.symm.trans ((Sst.find_eq_some_iff hXs).mpr ⟨hr, hk⟩)
        · have hkr : r'.key = r.key := hk'.trans hk.symm
          exact absurd (hX Y hY' r hr r' hr' hkr.symm)
            (hmax X mem_cons_self r' hr' hkr).not_gt

theorem findSome_stamp {l : List (Sst K)} (hl : l.Pairwise fun X Y => Older Y X)
    (hs : ∀ X ∈ l, X.Sorted) (hr : (l.findSome? fun X => X.find k) = some r) :
    ∀ X ∈ l, ∀ r' ∈ X.entries, r'.key = k → r'.stamp ≤ r.stamp := by
  induction l with
  | nil => simp at hr
  | cons X l ih =>
    obtain ⟨hX, hl'⟩ := pairwise_cons.mp hl
    have hXs := hs X mem_cons_self
    rw [findSome?_cons] at hr
    intro Y hY r' hr' hk
    rcases e : X.find k with - | a
    · rw [e] at hr
      rcases mem_cons.mp hY with rfl | hY'
      · exact absurd hk (Sst.find_eq_none_iff.mp e r' hr')
      · exact ih hl' (fun Z hZ => hs Z (mem_cons_of_mem _ hZ)) hr Y hY' r' hr' hk
    · rw [e] at hr
      obtain rfl : a = r := Option.some.inj hr
      rcases mem_cons.mp hY with rfl | hY'
      · obtain rfl : r' = a :=
          Option.some.inj (((Sst.find_eq_some_iff hXs).mpr ⟨hr', hk⟩).symm.trans e)
        exact le_rfl
      · exact ((hX Y hY').2 r' hr' a ((Sst.find_eq_some_iff hXs).mp e).1).le

/-- The output of a merge answers like its inputs, read from the last one back,
except for the tombstones it drops. -/
theorem MergedFrom.find_eq {discard : Bool} {inputs : List (Sst K)} {out : MergeOutput K}
    (h : MergedFrom discard inputs out) (hM : Mergeable inputs)
    (hpw : inputs.Pairwise KeyEpochLt) (k : K) :
    out.sst.find k = (inputs.reverse.findSome? fun X => X.find k).filter
      fun r => !(discard && isTombstone r.value) := by
  have hrev : ∀ {r}, Newest inputs.reverse r ↔ Newest inputs r := by
    intro r
    simp [Newest]
  refine Option.ext fun r => ?_
  rw [Sst.find_eq_some_iff h.sorted, h.mem_iff, Option.filter_eq_some_iff,
    findSome_eq_some_iff (pairwise_reverse.mpr hpw)
      (fun X hX => hM.sorted X (mem_reverse.mp hX)), hrev, Bool.not_eq_true',
    ← Bool.not_eq_true, Bool.and_eq_true]
  exact and_right_comm

namespace LevelsOk

variable {cfg : SstManagerConfig} {p : ℕ} {R : Sst K → Sst K → Prop} {L : ℕ → List (Sst K)}

theorem pairwise (h : LevelsOk cfg p Older L) (i : ℕ) : (L i).Pairwise Older := by
  rcases Nat.lt_trichotomy (i + 1) cfg.maxNumLevels with hi | hi | hi
  · exact h.within i hi
  · obtain rfl : i = cfg.maxNumLevels - 1 := by omega
    exact h.last
  · rw [h.beyond i (by omega)]
    exact Pairwise.nil

theorem readOrder_pairwise (h : LevelsOk cfg p Older L) :
    (readOrder ((range cfg.maxNumLevels).map L)).Pairwise fun X Y => Older Y X := by
  rw [readOrder, flatMap_map, pairwise_flatMap]
  refine ⟨fun i _ => pairwise_reverse.mpr (h.pairwise i), ?_⟩
  refine pairwise_lt_range.imp fun {i j} hij X hX Y hY => ?_
  exact h.across i j hij X (mem_reverse.mp hX) Y (mem_reverse.mp hY)

omit [LinearOrder K] in
theorem mem_readOrder {n : ℕ} {L : ℕ → List (Sst K)} :
    X ∈ readOrder ((range n).map L) ↔ ∃ i < n, X ∈ L i := by
  simp [readOrder]

theorem readOrder_sst (h : LevelsOk cfg p R L)
    (hX : X ∈ readOrder ((range cfg.maxNumLevels).map L)) :
    X.upperBound = p ∧ X.Sorted ∧ X.AllDecodable := by
  obtain ⟨i, -, hXi⟩ := mem_readOrder.mp hX
  exact h.sst i X hXi

end LevelsOk

end HedgeDB
