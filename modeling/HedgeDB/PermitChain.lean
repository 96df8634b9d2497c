/-
HedgeDB/PermitChain.lean

Tasks that take turns by handing on a permit.

Tasks are numbered in the order in which they are launched.  Task `k` waits for
semaphore `k` and releases semaphore `k + 1` when it is through; only semaphore `0`
has a permit at the start.  A task that fails releases nothing.

`Ok permits stage turn`: the tasks before `turn` have taken their permits in order, and
the one permit there is lies at semaphore `turn`, unless task `turn - 1` still holds it.
Hence a permit is always taken in turn (`Ok.acquire`), and when all tasks before `k`
are over, semaphore `k` has its permit if and only if none of them failed
(`Ok.available_iff`).
-/
import Mathlib.Algebra.Order.Ring.Nat
import Mathlib.Data.List.Basic
import Mathlib.Logic.Function.Basic
import Mathlib.Tactic.Common

namespace PermitChain

open List Function

/-- Where a task is. -/
inductive Stage
  | working
  | waiting
  | holding
  | passed
  | failed
  deriving DecidableEq, Repr

/-- The task has taken its permit. -/
def Stage.Taken (s : Stage) : Prop := s = .holding ∨ s = .passed

instance (s : Stage) : Decidable s.Taken := inferInstanceAs (Decidable (_ ∨ _))

/-- The task will not do anything to the chain any more. -/
def Stage.Over (s : Stage) : Prop := s = .passed ∨ s = .failed

/-- The semaphores at the start. -/
def initial : ℕ → ℕ := fun n => if n = 0 then 1 else 0

/-- The task before has handed on the permit of task `k`. -/
def Arrived (stage : ℕ → Stage) : ℕ → Prop
  | 0 => True
  | k + 1 => stage k = .passed

instance (stage : ℕ → Stage) : ∀ k, Decidable (Arrived stage k)
  | 0 => isTrue trivial
  | k + 1 => inferInstanceAs (Decidable (stage k = .passed))

structure Ok (permits : ℕ → ℕ) (stage : ℕ → Stage) (turn : ℕ) : Prop where
  passed : ∀ k, k + 1 < turn → stage k = .passed
  last : ∀ k, k + 1 = turn → (stage k).Taken
  later : ∀ k, turn ≤ k → ¬ (stage k).Taken
  permits : ∀ k, permits k = if k = turn ∧ Arrived stage k then 1 else 0

variable {permits : ℕ → ℕ} {stage : ℕ → Stage} {turn k : ℕ}

theorem Ok.start : Ok initial (fun _ => .working) 0 := by
  refine ⟨fun k h => absurd h (by omega), fun k h => absurd h (by omega), fun k _ h => ?_,
    fun k => ?_⟩
  · rcases h with h | h <;> cases h
  · unfold initial
    by_cases hk : k = 0
    · rw [if_pos hk, if_pos ⟨hk, hk ▸ trivial⟩]
    · rw [if_neg hk, if_neg fun h => hk h.1]

theorem Ok.lt_turn_iff (h : Ok permits stage turn) : (stage k).Taken ↔ k < turn := by
  refine ⟨fun ht => Nat.lt_of_not_le fun hle => h.later k hle ht, fun hk => ?_⟩
  rcases Nat.lt_or_ge (k + 1) turn with hlt | hge
  · exact .inr (h.passed k hlt)
  · exact h.last k (by omega)

theorem Ok.settle (h : Ok permits stage turn) (hk : ¬ (stage k).Taken) {s : Stage}
    (hs : ¬ s.Taken) : Ok permits (update stage k s) turn := by
  have hturn : turn ≤ k := Nat.le_of_not_lt (mt h.lt_turn_iff.mpr hk)
  have hbefore : ∀ j, j < turn → update stage k s j = stage j :=
    fun j hj => update_of_ne (by omega) _ _
  refine ⟨fun j hj => ?_, fun j hj => ?_, fun j hj => ?_, fun j => ?_⟩
  · rw [hbefore j (by omega)]
    exact h.passed j hj
  · rw [hbefore j (by omega)]
    exact h.last j hj
  · by_cases hjk : j = k
    · rwa [hjk, update_self]
    · rw [update_of_ne hjk]
      exact h.later j hj
  · rw [h.permits j]
    refine if_congr (and_congr_right fun hj => ?_) rfl rfl
    rcases j with - | j
    · exact Iff.rfl
    · rw [Arrived, Arrived, hbefore j (by omega)]

theorem Ok.of_permit (h : Ok permits stage turn) (hp : 0 < permits k) :
    k = turn ∧ Arrived stage k := by
  by_contra hno
  rw [h.permits k, if_neg hno] at hp
  exact absurd hp (lt_irrefl 0)

theorem Ok.passed_of_arrived (h : Ok permits stage turn) (harrived : Arrived stage turn)
    (hk : k < turn) : stage k = .passed := by
  rcases Nat.lt_or_ge (k + 1) turn with hlt | hge
  · exact h.passed k hlt
  · obtain rfl : turn = k + 1 := by omega
    exact harrived

theorem Ok.acquire (h : Ok permits stage turn) (hp : 0 < permits k) :
    k = turn ∧ Ok (update permits k (permits k - 1)) (update stage k .holding)
      (turn + 1) := by
  obtain ⟨rfl, hpred⟩ := h.of_permit hp
  have hbefore : ∀ j, j < k → update stage k .holding j = stage j :=
    fun j hj => update_of_ne (by omega) _ _
  refine ⟨rfl, fun j hj => ?_, fun j hj => ?_, fun j hj => ?_, fun j => ?_⟩
  · rw [hbefore j (by omega)]
    exact h.passed_of_arrived hpred (by omega)
  · obtain rfl : j = k := by omega
    rw [update_self]
    exact .inl rfl
  · rw [update_of_ne (by omega)]
    exact h.later j (by omega)
  · by_cases hjk : j = k
    · rw [hjk, update_self, h.permits k, if_pos ⟨rfl, hpred⟩,
        if_neg fun h => absurd h.1 (by omega)]
    · rw [update_of_ne hjk, h.permits j, if_neg fun h => hjk h.1, if_neg]
      -- the permit of the next task is on its way
      rintro ⟨rfl, hnext⟩
      rw [Arrived, update_self] at hnext
      cases hnext

theorem Ok.release (h : Ok permits stage turn) (hk : stage k = .holding) :
    Ok (update permits (k + 1) (permits (k + 1) + 1)) (update stage k .passed)
      turn := by
  have hlt : k < turn := h.lt_turn_iff.mp (.inl hk)
  obtain rfl : k + 1 = turn := by
    by_contra hne
    have := h.passed k (by omega)
    rw [hk] at this
    cases this
  refine ⟨fun j hj => ?_, fun j hj => ?_, fun j hj => ?_, fun j => ?_⟩
  · rw [update_of_ne (by omega)]
    exact h.passed j hj
  · obtain rfl : j = k := by omega
    rw [update_self]
    exact .inr rfl
  · rw [update_of_ne (by omega)]
    exact h.later j hj
  · by_cases hjk : j = k + 1
    · subst hjk
      rw [update_self, h.permits, if_neg, if_pos]
      · exact ⟨rfl, update_self _ _ _⟩
      · rintro ⟨-, hnext⟩
        rw [Arrived, hk] at hnext
        cases hnext
    · rw [update_of_ne hjk, h.permits j, if_neg fun h => hjk h.1, if_neg fun h => hjk h.1]

/-- A task that holds the permit is the first that is not done, when the tasks that are
done come first and those that have handed on the permit are among them. -/
theorem Ok.holding_eq (h : Ok permits stage turn) {n : ℕ} {done : ℕ → Prop}
    (hdone : ∀ j, j < n ↔ done j) (hpassed : ∀ j, stage j = .passed → done j)
    (hk : stage k = .holding) (hnot : ¬ done k) : k = n := by
  have hlt : k < turn := h.lt_turn_iff.mp (.inl hk)
  refine Nat.le_antisymm (Nat.le_of_not_lt fun hgt => ?_) (Nat.le_of_not_lt fun hgt => ?_)
  · have hn := h.passed n (by omega)
    exact absurd ((hdone n).mpr (hpassed n hn)) (lt_irrefl n)
  · exact hnot ((hdone k).mp hgt)

theorem log_concat {log : List ℕ} (h : log = range log.length) :
    log ++ [log.length] = range (log ++ [log.length]).length := by
  rw [length_append, length_singleton, range_succ, ← h]

theorem lt_length_log_concat {log : List ℕ} {done : ℕ → Prop} (h : ∀ j, j < log.length ↔ done j)
    (j : ℕ) : j < (log ++ [log.length]).length ↔ j = log.length ∨ done j := by
  rw [length_append, length_singleton, ← h j, Nat.lt_succ_iff_lt_or_eq, or_comm]

/-- **Whether the next permit is there.**  When the tasks before `k` are over and task
`k` has not taken its permit, the permit is available if and only if no task before
`k` failed. -/
theorem Ok.available_iff (h : Ok permits stage turn) (hover : ∀ j < k, (stage j).Over)
    (hk : ¬ (stage k).Taken) : 0 < permits k ↔ ∀ j < k, stage j ≠ .failed := by
  constructor
  · intro hp j hj hfail
    obtain ⟨rfl, hpred⟩ := h.of_permit hp
    have hpassed := h.passed_of_arrived hpred hj
    rw [hfail] at hpassed
    cases hpassed
  · intro hnone
    have hpassed : ∀ j < k, stage j = .passed := fun j hj => (hover j hj).resolve_right (hnone j hj)
    have hle : turn ≤ k := Nat.le_of_not_lt (mt h.lt_turn_iff.mpr hk)
    have hge : k ≤ turn := by
      by_contra hlt
      have := h.lt_turn_iff.mp (.inr (hpassed (k - 1) (by omega)))
      omega
    have harrived : Arrived stage k := by
      rcases k with - | k
      · trivial
      · exact hpassed k (Nat.lt_succ_self k)
    rw [h.permits k, if_pos ⟨Nat.le_antisymm hge hle, harrived⟩]
    exact Nat.one_pos

end PermitChain
