/-
HedgeDB/CompactionPicking.lean

Which SSTs of a level are picked (`create_buckets_from_level` of
`src/db/sst_manager.cc`, `set_compaction_state` of `src/db/sst.h`).

`Compaction` cuts a level into buckets by what could be picked before.  The code asks each
SST when it comes to it, and an emitted bucket changes the state of its SSTs.  An SST is the
position in the level here, so that the states can change under the loop.  What the loop asks
has not been changed yet: it never goes back to an SST it has emitted, and so it finds the
buckets of `Compaction` (`pickLoop_eq`).

A run of pickable SSTs is cut into buckets of the largest width; what is left at its end is
one more bucket, or too little for one (`runBuckets`).
-/
import HedgeDB.Compaction

namespace HedgeDB

open List

/-! ### The loop with the states it changes -/

/-- The states of the SSTs of the level, by position, and the buckets emitted. -/
structure Picking where
  states : List CompactionProgressState
  buckets : List (List ℕ) := []
  deriving DecidableEq, Repr

/-- `pickable_for_compaction` of the SST at a position. -/
def pickableAt (states : List CompactionProgressState) (i : ℕ) : Bool :=
  states[i]? = some .pickableForCompaction

/-- `set_compaction_state(IN_COMPACTION)` on each candidate. -/
def setInCompaction : List CompactionProgressState → List ℕ → Expected (List CompactionProgressState)
  | states, [] => .ok states
  | states, i :: is =>
      match states[i]? with
      | none => setInCompaction states is
      | some state =>
          match state.set .inCompaction with
          | .error e => .error e
          | .ok state => setInCompaction (states.set i state) is

section Loop

variable (minMergeWidth maxMergeWidth : ℕ)

/-- Emit a candidate set that is wide enough. -/
def emitCandidates (p : Picking) (candidates : List ℕ) : Expected Picking :=
  if minMergeWidth ≤ candidates.length then
    match setInCompaction p.states candidates with
    | .error e => .error e
    | .ok states => .ok { states, buckets := p.buckets ++ [candidates] }
  else .ok p

/-- The loop of `create_buckets_from_level` over the positions left; `none` is the loop
skipping SSTs that cannot be picked, `some candidates` the loop collecting. -/
def pickLoop : Picking → Option (List ℕ) → List ℕ → Expected Picking
  | p, _, [] => .ok p
  | p, none, i :: is =>
      if pickableAt p.states i then pickLoop p (some [i]) is else pickLoop p none is
  | p, some candidates, i :: is =>
      if pickableAt p.states i ∧ candidates.length < maxMergeWidth then
        if is ≠ [] then pickLoop p (some (candidates ++ [i])) is
        else emitCandidates minMergeWidth p (candidates ++ [i])
      else
        match emitCandidates minMergeWidth p candidates with
        | .error e => .error e
        | .ok p => if pickableAt p.states i then pickLoop p (some [i]) is else pickLoop p none is

/-- `sst_manager::create_buckets_from_level`. -/
def pickFromLevel (states : List CompactionProgressState) : Expected Picking :=
  if states.length < minMergeWidth then .ok { states }
  else pickLoop minMergeWidth maxMergeWidth { states } none (range states.length)

end Loop

/-! ### Buckets of a level -/

section Buckets

variable {α : Type*} {pickable : α → Bool} {minMergeWidth maxMergeWidth : ℕ} {c : List α}

theorem mem_emitBucket {b : List α} :
    b ∈ emitBucket minMergeWidth c ↔ b = c ∧ minMergeWidth ≤ c.length := by
  rw [emitBucket]
  split
  · next h => simp [h]
  · next h => simp [h]

/-- What the loop may be collecting. -/
def Candidates (pickable : α → Bool) (maxMergeWidth : ℕ) (c : List α) : Prop :=
  c.length ≤ maxMergeWidth ∧ ∀ x ∈ c, pickable x = true

theorem Candidates.concat {x : α} (h : Candidates pickable maxMergeWidth c)
    (hx : pickable x = true) (hlen : c.length < maxMergeWidth) :
    Candidates pickable maxMergeWidth (c ++ [x]) := by
  refine ⟨by simpa using Nat.succ_le_of_lt hlen, fun y hy => ?_⟩
  rcases mem_append.mp hy with hy | hy
  · exact h.2 y hy
  · rw [mem_singleton.mp hy]
    exact hx

theorem candidates_singleton {x : α} (hmax : 1 ≤ maxMergeWidth) (hx : pickable x = true) :
    Candidates pickable maxMergeWidth [x] := ⟨hmax, by simpa using hx⟩

/-- A bucket is a stretch of the level, of SSTs that can be picked and not too wide. -/
theorem of_mem_bucketLoop (hmax : 1 ≤ maxMergeWidth) {o : Option (List α)} {l b : List α}
    (ho : ∀ c ∈ o, Candidates pickable maxMergeWidth c)
    (h : b ∈ bucketLoop pickable minMergeWidth maxMergeWidth o l) :
    b <:+: o.getD [] ++ l ∧ Candidates pickable maxMergeWidth b := by
  induction l generalizing o with
  | nil => rcases o with - | c <;> simp [bucketLoop] at h
  | cons x xs ih =>
    -- the loop starts again at `x`, or behind it
    have hrestart : b ∈ (if pickable x then bucketLoop pickable minMergeWidth maxMergeWidth (some [x]) xs
        else bucketLoop pickable minMergeWidth maxMergeWidth none xs) →
          b <:+: x :: xs ∧ Candidates pickable maxMergeWidth b := by
      intro hb
      split at hb
      · next hx =>
        refine ih (fun c hc => ?_) hb
        cases hc
        exact candidates_singleton hmax hx
      · obtain ⟨hinside, hb⟩ := ih (by simp) hb
        exact ⟨hinside.trans (suffix_cons x xs).isInfix, hb⟩
    rcases o with - | c <;> rw [bucketLoop] at h
    · exact hrestart h
    · have hc := ho c rfl
      show b <:+: c ++ x :: xs ∧ _
      split at h
      · next hx =>
        have hcx := hc.concat hx.1 hx.2
        split at h
        · have hcollect := ih (o := some (c ++ [x])) (by simpa using hcx) h
          rwa [Option.getD_some, append_assoc, singleton_append] at hcollect
        · obtain ⟨rfl, -⟩ := mem_emitBucket.mp h
          exact ⟨⟨[], xs, by simp⟩, hcx⟩
      · rcases mem_append.mp h with h | h
        · obtain ⟨rfl, -⟩ := mem_emitBucket.mp h
          exact ⟨(prefix_append _ _).isInfix, hc⟩
        · obtain ⟨hinside, hb⟩ := hrestart h
          exact ⟨hinside.trans (suffix_append c (x :: xs)).isInfix, hb⟩

theorem flatten_bucketLoop_sublist (o : Option (List α)) (l : List α) :
    (bucketLoop pickable minMergeWidth maxMergeWidth o l).flatten.Sublist (o.getD [] ++ l) := by
  have hemit : ∀ c : List α, (emitBucket minMergeWidth c).flatten.Sublist c := by
    intro c
    rw [emitBucket]
    split <;> simp
  induction l generalizing o with
  | nil => rcases o with - | c <;> simp [bucketLoop]
  | cons x xs ih =>
    have hrestart : (if pickable x then bucketLoop pickable minMergeWidth maxMergeWidth (some [x]) xs
        else bucketLoop pickable minMergeWidth maxMergeWidth none xs).flatten.Sublist (x :: xs) := by
      split
      · exact ih (some [x])
      · exact (ih none).trans (sublist_cons_self x xs)
    rcases o with - | c <;> rw [bucketLoop]
    · exact hrestart
    · show Sublist _ (c ++ x :: xs)
      split
      · split
        · simpa using ih (some (c ++ [x]))
        · refine (hemit _).trans ?_
          simp
      · rw [flatten_append]
        exact (hemit c).append hrestart

/-! ### Runs of pickable SSTs -/

/-- The buckets of a run: of the largest width, and at the end of the run what is left. -/
def runBuckets (minMergeWidth maxMergeWidth : ℕ) : List α → List α → List (List α)
  | c, [] => emitBucket minMergeWidth c
  | c, x :: xs =>
      if c.length < maxMergeWidth then runBuckets minMergeWidth maxMergeWidth (c ++ [x]) xs
      else emitBucket minMergeWidth c ++ runBuckets minMergeWidth maxMergeWidth [x] xs

theorem flatten_runBuckets (hwidth : minMergeWidth ≤ maxMergeWidth) (hmin : 1 ≤ minMergeWidth)
    (c run : List α) :
    ∃ left, (runBuckets minMergeWidth maxMergeWidth c run).flatten ++ left = c ++ run ∧
      left.length < minMergeWidth := by
  induction run generalizing c with
  | nil =>
    rw [runBuckets, emitBucket]
    split
    · exact ⟨[], by simp, hmin⟩
    · next hshort => exact ⟨c, by simp, Nat.lt_of_not_le hshort⟩
  | cons x xs ih =>
    rw [runBuckets]
    split
    · obtain ⟨left, hflat, hleft⟩ := ih (c ++ [x])
      exact ⟨left, by simpa using hflat, hleft⟩
    · next hfull =>
      obtain ⟨left, hflat, hleft⟩ := ih [x]
      refine ⟨left, ?_, hleft⟩
      rw [emitBucket, if_pos (hwidth.trans (Nat.not_lt.mp hfull)), flatten_append,
        append_assoc, hflat]
      simp

/-- The level ends, or an SST that cannot be picked comes next. -/
def RunEnds (pickable : α → Bool) (rest : List α) : Prop := ∀ y ∈ rest.head?, pickable y = false

/-- The loop in a run.  At the end of the level it comes out with nothing collected but one
SST. -/
theorem bucketLoop_run {run rest : List α} (hmin : 2 ≤ minMergeWidth)
    (hrun : ∀ x ∈ run, pickable x = true) (hrest : RunEnds pickable rest)
    (hend : run ++ rest = [] → c.length < minMergeWidth) :
    bucketLoop pickable minMergeWidth maxMergeWidth (some c) (run ++ rest) =
      runBuckets minMergeWidth maxMergeWidth c run ++
        bucketLoop pickable minMergeWidth maxMergeWidth none rest := by
  induction run generalizing c with
  | nil =>
    rw [nil_append, runBuckets]
    rcases rest with - | ⟨y, ys⟩
    · have hshort := hend rfl
      simp [bucketLoop, emitBucket, hshort]
    · have hy : pickable y = false := hrest y rfl
      simp [bucketLoop, hy]
  | cons x xs ih =>
    obtain ⟨hx, hxs⟩ := forall_mem_cons.mp hrun
    rw [cons_append, bucketLoop, runBuckets]
    by_cases hlen : c.length < maxMergeWidth
    · rw [if_pos ⟨hx, hlen⟩, if_pos hlen]
      by_cases hmore : xs ++ rest = []
      · obtain ⟨rfl, rfl⟩ := append_eq_nil_iff.mp hmore
        simp [runBuckets, bucketLoop]
      · rw [if_pos hmore]
        exact ih hxs fun hnil => absurd hnil hmore
    · rw [if_neg (fun h => hlen h.2), if_neg hlen, if_pos hx,
        ih hxs fun _ => (show [x].length = 1 from rfl) ▸ (show 1 < minMergeWidth by omega), append_assoc]

/-- An SST that cannot be picked separates what comes before from what comes after. -/
theorem bucketLoop_separate {y : α} (hy : pickable y = false) (o : Option (List α)) (pre rest : List α) :
    bucketLoop pickable minMergeWidth maxMergeWidth o (pre ++ y :: rest) =
      bucketLoop pickable minMergeWidth maxMergeWidth o (pre ++ [y]) ++
        bucketLoop pickable minMergeWidth maxMergeWidth none rest := by
  induction pre generalizing o with
  | nil => rcases o with - | c <;> simp [bucketLoop, hy]
  | cons x xs ih =>
    rcases o with - | c
    · rw [cons_append, cons_append, bucketLoop, bucketLoop]
      split <;> exact ih _
    · rw [cons_append, cons_append, bucketLoop, bucketLoop]
      split
      · rw [if_pos (by simp), if_pos (by simp)]
        exact ih _
      · rw [append_assoc]
        congr 1
        split <;> exact ih _

theorem bucketLoop_congr {pickable' : α → Bool} {o : Option (List α)} {l : List α}
    (h : ∀ x ∈ l, pickable x = pickable' x) :
    bucketLoop pickable minMergeWidth maxMergeWidth o l =
      bucketLoop pickable' minMergeWidth maxMergeWidth o l := by
  induction l generalizing o with
  | nil => rcases o with - | c <;> simp [bucketLoop]
  | cons x xs ih =>
    obtain ⟨hx, hxs⟩ := forall_mem_cons.mp h
    rcases o with - | c <;> simp only [bucketLoop, hx, ih hxs]

end Buckets

/-! ### The states -/

/-- The states with some SSTs in compaction. -/
def marked (states : List CompactionProgressState) (is : List ℕ) : List CompactionProgressState :=
  is.foldl (fun states i => states.set i .inCompaction) states

variable {states : List CompactionProgressState} {is : List ℕ}

theorem getElem?_marked (his : ∀ i ∈ is, i < states.length) (j : ℕ) :
    (marked states is)[j]? = if j ∈ is then some .inCompaction else states[j]? := by
  induction is generalizing states with
  | nil => simp [marked]
  | cons i is ih =>
    obtain ⟨hi, his⟩ := forall_mem_cons.mp his
    have his' : ∀ j ∈ is, j < (states.set i .inCompaction).length := by simpa using his
    have hrest := ih his'
    rw [show marked states (i :: is) = marked (states.set i .inCompaction) is from rfl, hrest]
    by_cases hj : j ∈ is
    · simp [hj]
    · by_cases hij : j = i
      · subst hij
        simp [hj, hi]
      · simp [hj, hij, getElem?_set_ne (Ne.symm hij)]

theorem lt_length_of_pickableAt {i : ℕ} (h : pickableAt states i = true) : i < states.length := by
  by_contra hi
  rw [pickableAt, getElem?_eq_none (Nat.not_lt.mp hi)] at h
  simp at h

theorem pickableAt_marked (his : ∀ i ∈ is, pickableAt states i = true) {j : ℕ} (hj : j ∉ is) :
    pickableAt (marked states is) j = pickableAt states j := by
  rw [pickableAt, pickableAt, getElem?_marked (fun i hi => lt_length_of_pickableAt (his i hi)), if_neg hj]

theorem setInCompaction_eq (his : ∀ i ∈ is, pickableAt states i = true) (hnodup : is.Nodup) :
    setInCompaction states is = .ok (marked states is) := by
  induction is generalizing states with
  | nil => rfl
  | cons i is ih =>
    obtain ⟨hi, his⟩ := forall_mem_cons.mp his
    obtain ⟨hnot, hnodup⟩ := nodup_cons.mp hnodup
    have hstate : states[i]? = some .pickableForCompaction := by simpa [pickableAt] using hi
    have hset : CompactionProgressState.set .pickableForCompaction .inCompaction =
        .ok .inCompaction := rfl
    simp only [setInCompaction, hstate, hset]
    refine ih (fun j hj => ?_) hnodup
    have hne : i ≠ j := fun heq => hnot (heq ▸ hj)
    rw [pickableAt, getElem?_set_ne hne]
    exact his j hj

section Loop

variable {minMergeWidth maxMergeWidth : ℕ}

theorem emitCandidates_eq {p : Picking} {c : List ℕ} (hc : ∀ i ∈ c, pickableAt p.states i = true)
    (hnodup : c.Nodup) :
    emitCandidates minMergeWidth p c =
      .ok ⟨marked p.states (emitBucket minMergeWidth c).flatten,
        p.buckets ++ emitBucket minMergeWidth c⟩ := by
  rw [emitCandidates, emitBucket]
  split
  · rw [setInCompaction_eq hc hnodup]
    simp
  · simp [marked]

/-- **The states that the loop changes are never asked again**: it finds the buckets of the
states before. -/
theorem pickLoop_eq {p : Picking} {o : Option (List ℕ)} {l : List ℕ}
    (ho : ∀ c ∈ o, ∀ i ∈ c, pickableAt p.states i = true) (hnodup : (o.getD [] ++ l).Nodup) :
    pickLoop minMergeWidth maxMergeWidth p o l =
      .ok ⟨marked p.states
          (bucketLoop (pickableAt p.states) minMergeWidth maxMergeWidth o l).flatten,
        p.buckets ++ bucketLoop (pickableAt p.states) minMergeWidth maxMergeWidth o l⟩ := by
  induction l generalizing p o with
  | nil => rcases o with - | c <;> simp [pickLoop, bucketLoop, marked]
  | cons i is ih =>
    -- the loop starts again at `i`, or behind it
    have hrestart : ∀ p : Picking, (i :: is).Nodup →
        (if pickableAt p.states i then pickLoop minMergeWidth maxMergeWidth p (some [i]) is
          else pickLoop minMergeWidth maxMergeWidth p none is) =
        .ok ⟨marked p.states
            (bucketLoop (pickableAt p.states) minMergeWidth maxMergeWidth none (i :: is)).flatten,
          p.buckets ++ bucketLoop (pickableAt p.states) minMergeWidth maxMergeWidth none (i :: is)⟩ := by
      intro p hnodup
      rw [bucketLoop]
      by_cases hi : pickableAt p.states i = true
      · rw [if_pos hi, if_pos hi]
        exact ih (by simpa using hi) hnodup
      · rw [if_neg hi, if_neg hi]
        exact ih (by simp) (nodup_cons.mp hnodup).2
    rcases o with - | c
    · rw [pickLoop]
      exact hrestart p hnodup
    · have hc := ho c rfl
      obtain ⟨hcn, hin, hdisj⟩ := nodup_append.mp hnodup
      rw [pickLoop, bucketLoop]
      by_cases hi : pickableAt p.states i ∧ c.length < maxMergeWidth
      · have hci : ∀ j ∈ c ++ [i], pickableAt p.states j = true := by
          intro j hj
          rcases mem_append.mp hj with hj | hj
          · exact hc j hj
          · rw [mem_singleton.mp hj]
            exact hi.1
        have hnodup' : ((c ++ [i]) ++ is).Nodup := by simpa using hnodup
        rw [if_pos hi, if_pos hi]
        by_cases hmore : is ≠ []
        · rw [if_pos hmore, if_pos hmore]
          exact ih (by simpa using hci) hnodup'
        · rw [if_neg hmore, if_neg hmore]
          exact emitCandidates_eq hci (nodup_append.mp hnodup').1
      · rw [if_neg hi, if_neg hi, emitCandidates_eq hc hcn]
        have hemit : (emitBucket minMergeWidth c).flatten ⊆ c := by
          rw [emitBucket]
          split <;> simp
        -- none of the candidates is asked again
        have hsame : ∀ j ∈ i :: is, pickableAt (marked p.states (emitBucket minMergeWidth c).flatten) j =
            pickableAt p.states j := by
          intro j hj
          refine pickableAt_marked (fun k hk => hc k (hemit hk)) fun hmem => ?_
          exact hdisj j (hemit hmem) j hj rfl
        refine (hrestart ⟨marked p.states (emitBucket minMergeWidth c).flatten,
          p.buckets ++ emitBucket minMergeWidth c⟩ hin).trans ?_
        dsimp only
        rw [bucketLoop_congr hsame, bucketLoop]
        simp [marked, foldl_append]

theorem pickFromLevel_eq (states : List CompactionProgressState) :
    pickFromLevel minMergeWidth maxMergeWidth states =
      .ok ⟨marked states (createBucketsFromLevel (pickableAt states) minMergeWidth maxMergeWidth
          (range states.length)).flatten,
        createBucketsFromLevel (pickableAt states) minMergeWidth maxMergeWidth
          (range states.length)⟩ := by
  rw [pickFromLevel, createBucketsFromLevel, length_range]
  split
  · rfl
  · exact pickLoop_eq (by simp) nodup_range

end Loop

/-! ### What is picked -/

theorem bucketLoop_maximal {α : Type*} {pickable : α → Bool} {minMergeWidth maxMergeWidth : ℕ}
    (hmin : 2 ≤ minMergeWidth) (hwidth : minMergeWidth ≤ maxMergeWidth) {pre run rest : List α}
    (hpre : ∀ y ∈ pre.getLast?, pickable y = false) (hrun : ∀ x ∈ run, pickable x = true)
    (hrest : RunEnds pickable rest) :
    ∃ before picked left after,
      (bucketLoop pickable minMergeWidth maxMergeWidth none (pre ++ run ++ rest)).flatten =
        before ++ picked ++ after ∧
      picked ++ left = run ∧ left.length < minMergeWidth ∧ before ⊆ pre ∧ after ⊆ rest := by
  -- the run itself, when the level begins with it
  have hfront : ∃ picked left,
      (bucketLoop pickable minMergeWidth maxMergeWidth none (run ++ rest)).flatten =
        picked ++ (bucketLoop pickable minMergeWidth maxMergeWidth none rest).flatten ∧
      picked ++ left = run ∧ left.length < minMergeWidth := by
    rcases run with - | ⟨x, xs⟩
    · exact ⟨[], [], rfl, rfl, by simp only [length_nil]; omega⟩
    · obtain ⟨hx, hxs⟩ := forall_mem_cons.mp hrun
      obtain ⟨left, hflat, hleft⟩ := flatten_runBuckets hwidth (by omega) [x] xs
      refine ⟨_, left, ?_, hflat, hleft⟩
      rw [cons_append, bucketLoop, if_pos hx,
        bucketLoop_run (c := [x]) hmin hxs hrest fun _ => hmin, flatten_append]
  obtain ⟨picked, left, hflat, hrun', hleft⟩ := hfront
  have hafter : (bucketLoop pickable minMergeWidth maxMergeWidth none rest).flatten ⊆ rest :=
    (flatten_bucketLoop_sublist none rest).subset
  rcases eq_nil_or_concat pre with rfl | ⟨pre, y, rfl⟩
  · exact ⟨[], picked, left, _, by simpa using hflat, hrun', hleft, nil_subset _, hafter⟩
  · have hy : pickable y = false := hpre y (by simp)
    refine ⟨(bucketLoop pickable minMergeWidth maxMergeWidth none (pre ++ [y])).flatten, picked, left, _,
      ?_, hrun', hleft, ?_, hafter⟩
    · rw [concat_eq_append, append_assoc, append_assoc, singleton_append,
        bucketLoop_separate hy, flatten_append, hflat, append_assoc]
    · rw [concat_eq_append]
      exact (flatten_bucketLoop_sublist none _).subset

theorem eq_range'_of_append {l r : List ℕ} {a n : ℕ} (h : l ++ r = range' a n) :
    l = range' a l.length ∧ r = range' (a + l.length) r.length := by
  have hn : n = l.length + r.length := by simpa using (congrArg length h).symm
  rw [hn, ← range'_append, Nat.one_mul] at h
  exact append_inj h (by simp)

/-- The SSTs at the positions from `a` to `a + n` can be picked, those beside them cannot. -/
structure MaximalRun (states : List CompactionProgressState) (a n : ℕ) : Prop where
  pickable : ∀ i, a ≤ i → i < a + n → pickableAt states i = true
  before : 0 < a → pickableAt states (a - 1) = false
  after : pickableAt states (a + n) = false

theorem MaximalRun.picked {minMergeWidth maxMergeWidth : ℕ} (hmin : 2 ≤ minMergeWidth)
    (hwidth : minMergeWidth ≤ maxMergeWidth) {a n : ℕ} (hrun : MaximalRun states a n) :
    ∃ k ≤ n, n - k < minMergeWidth ∧ ∀ j < n,
      (a + j ∈ (bucketLoop (pickableAt states) minMergeWidth maxMergeWidth none
        (range states.length)).flatten ↔ j < k) := by
  rcases n with - | n
  · exact ⟨0, le_rfl, by omega, by simp⟩
  · have hlast := lt_length_of_pickableAt (hrun.pickable (a + n) (by omega) (by omega))
    obtain ⟨m, hm⟩ : ∃ m, states.length = a + (n + 1) + m := ⟨_, (Nat.add_sub_of_le hlast).symm⟩
    have hlevel : range states.length =
        range' 0 a ++ range' a (n + 1) ++ range' (a + (n + 1)) m := by
      rw [range_eq_range', hm, ← range'_append_1, ← range'_append_1, Nat.zero_add,
        Nat.zero_add]
    have hpre : ∀ y ∈ (range' 0 a).getLast?, pickableAt states y = false := by
      intro y hy
      obtain ⟨ys, hys⟩ := getLast?_eq_some_iff.mp hy
      obtain ⟨-, hy'⟩ := eq_range'_of_append hys.symm
      have hlen : a = ys.length + 1 := by simpa using congrArg length hys
      have hval : y = ys.length := by simpa using hy'
      have hbefore := hrun.before (by omega)
      rwa [show a - 1 = y by omega] at hbefore
    have hin : ∀ x ∈ range' a (n + 1), pickableAt states x = true := by
      intro x hx
      obtain ⟨hle, hlt⟩ := mem_range'_1.mp hx
      exact hrun.pickable x hle hlt
    have hrest : RunEnds (pickableAt states) (range' (a + (n + 1)) m) := by
      intro y hy
      rcases m with - | m
      · simp at hy
      · obtain rfl : a + (n + 1) = y := by simpa [range'_succ] using hy
        exact hrun.after
    obtain ⟨before, picked, left, after, hflat, hpicked, hleft, hbefore, hafter⟩ :=
      bucketLoop_maximal hmin hwidth hpre hin hrest
    obtain ⟨k, rfl⟩ : ∃ k, picked = range' a k := ⟨_, (eq_range'_of_append hpicked).1⟩
    have hlen : k + left.length = n + 1 := by simpa using congrArg length hpicked
    refine ⟨k, by omega, by omega, fun j hj => ?_⟩
    rw [hlevel, hflat, mem_append, mem_append, mem_range'_1]
    -- the rest of the level is before the run or behind it
    have hnotBefore : a + j ∉ before := fun h => by
      have := mem_range'_1.mp (hbefore h)
      omega
    have hnotAfter : a + j ∉ after := fun h => by
      have := mem_range'_1.mp (hafter h)
      omega
    simp [hnotBefore, hnotAfter]

/-- **Picking is sound and complete.**  The buckets are stretches of the level, in level order
and apart from each other, of SSTs that could be picked, and as wide as they may be; exactly
their SSTs are set to `IN_COMPACTION`.  Of a maximal run of SSTs that could be picked less
than a bucket is left over, at its end. -/
theorem pickFromLevel_spec {minMergeWidth maxMergeWidth : ℕ} (hmin : 2 ≤ minMergeWidth)
    (hwidth : minMergeWidth < maxMergeWidth) (states : List CompactionProgressState) :
    ∃ p, pickFromLevel minMergeWidth maxMergeWidth states = .ok p ∧
      p.buckets.flatten.Pairwise (· < ·) ∧
      (∀ b ∈ p.buckets, (∃ a, b = range' a b.length) ∧
        (minMergeWidth ≤ b.length ∧ b.length ≤ maxMergeWidth) ∧
        ∀ i ∈ b, pickableAt states i = true) ∧
      (∀ i, p.states[i]? =
        if i ∈ p.buckets.flatten then some .inCompaction else states[i]?) ∧
      ∀ a n, MaximalRun states a n → ∃ k ≤ n, n - k < minMergeWidth ∧
        ∀ j < n, (a + j ∈ p.buckets.flatten ↔ j < k) := by
  refine ⟨_, pickFromLevel_eq states, ?_⟩
  dsimp only
  rw [createBucketsFromLevel, length_range]
  split
  · next hshort =>
      refine ⟨Pairwise.nil, by simp, by simp [marked], fun a n hrun => ⟨0, Nat.zero_le n, ?_, by simp⟩⟩
      rcases n with - | n
      · omega
      · have hlast := lt_length_of_pickableAt (hrun.pickable (a + n) (by omega) (by omega))
        omega
  · have hsub : (bucketLoop (pickableAt states) minMergeWidth maxMergeWidth none
        (range states.length)).flatten.Sublist (range states.length) :=
      flatten_bucketLoop_sublist none _
    refine ⟨pairwise_lt_range.sublist hsub, fun b hb => ?_, ?_, fun a n hrun => ?_⟩
    · obtain ⟨⟨pre, post, hinside⟩, hlen, hpick⟩ := of_mem_bucketLoop (by omega) (by simp) hb
      refine ⟨⟨pre.length, ?_⟩, ⟨le_length_of_mem_bucketLoop hb, hlen⟩, hpick⟩
      rw [range_eq_range', append_assoc] at hinside
      have hstretch := (eq_range'_of_append (eq_range'_of_append hinside).2).1
      rwa [Nat.zero_add] at hstretch
    · apply getElem?_marked
      intro i hi
      exact mem_range.mp (hsub.subset hi)
    · exact hrun.picked hmin hwidth.le

/-- A run of four, an SST whose compaction failed, a run of two. -/
def levelOfSeven : List CompactionProgressState :=
  replicate 4 .pickableForCompaction ++ [.compactionError] ++
    replicate 2 .pickableForCompaction

theorem pickFromLevel_spec_levelOfSeven :
    ∃ p, pickFromLevel 2 3 levelOfSeven = .ok p ∧ p.buckets = [[0, 1, 2], [5, 6]] ∧
      p.buckets.flatten.Pairwise (· < ·) := by
  obtain ⟨p, hp, horder, -⟩ := pickFromLevel_spec (le_refl 2) (Nat.lt_succ_self 2) levelOfSeven
  refine ⟨p, hp, ?_, horder⟩
  have hbuckets : (pickFromLevel 2 3 levelOfSeven).map Picking.buckets = .ok [[0, 1, 2], [5, 6]] := rfl
  rw [hp] at hbuckets
  exact Except.ok.inj hbuckets

end HedgeDB
