/-
HedgeDB/BinarySearch.lean

The halving loop of `std::lower_bound` and `std::upper_bound`.

Both look for the position where a test turns from true to false.  The test is
asked at the middle of the window that is left.  It runs in a monad, since a
comparison may have to read its key first and fail.  `partitionPoint_spec` gives
the position by what lies before it and behind it.
-/
import Mathlib.Algebra.Order.Ring.Nat
import Mathlib.Data.List.Basic
import Mathlib.Tactic.Common

namespace BinarySearch

open List

variable {α : Type*} {m : Type → Type} [Monad m]

/-- The loop on the `len` positions from `first` on. -/
def search (p : α → m Bool) (l : List α) : ℕ → ℕ → ℕ → m ℕ
  | 0, first, _ => pure first
  | fuel + 1, first, len =>
      if len = 0 then pure first
      else
        match l[first + len / 2]? with
        | none => pure first
        | some x => do
            if ← p x then search p l fuel (first + len / 2 + 1) (len - len / 2 - 1)
            else search p l fuel first (len / 2)

/-- The first position whose element does not pass the test. -/
def partitionPoint (p : α → m Bool) (l : List α) : m ℕ := search p l l.length 0 l.length

section Search

variable [LawfulMonad m] {p : α → m Bool} {q : α → Bool} {l : List α}

/-- The window closes on the position, if all before it pass and none behind it does. -/
theorem search_spec (hp : ∀ x ∈ l, p x = pure (q x))
    (hmono : l.Pairwise fun a b => q b = true → q a = true) {fuel first len : ℕ}
    (hfuel : len ≤ fuel) (hlen : first + len ≤ l.length)
    (hbefore : ∀ x ∈ l.take first, q x = true) (hbehind : ∀ x ∈ l.drop (first + len), q x = false) :
    ∃ n ≤ l.length, search p l fuel first len = pure n ∧ (∀ x ∈ l.take n, q x = true) ∧
      ∀ x ∈ l.drop n, q x = false := by
  induction fuel generalizing first len with
  | zero =>
    obtain rfl : len = 0 := Nat.le_zero.mp hfuel
    exact ⟨first, hlen, rfl, hbefore, hbehind⟩
  | succ fuel ih =>
    rw [search]
    by_cases hzero : len = 0
    · subst hzero
      exact ⟨first, hlen, if_pos rfl, hbefore, hbehind⟩
    · have hmid : first + len / 2 < l.length := by omega
      have hsplit : l = l.take (first + len / 2) ++ l[first + len / 2] ::
          l.drop (first + len / 2 + 1) := by
        rw [← drop_eq_getElem_cons hmid, take_append_drop]
      rw [if_neg hzero, getElem?_eq_getElem hmid]
      simp only [hp _ (getElem_mem hmid), pure_bind]
      -- an element that passes has all before it pass, one that does not none behind it
      rw [hsplit, pairwise_append, pairwise_cons] at hmono
      obtain ⟨-, ⟨hafter, -⟩, hfirst⟩ := hmono
      cases hq : q l[first + len / 2] with
      | true =>
        rw [if_pos rfl]
        refine ih (by omega) (by omega) ?_ ?_
        · intro x hx
          rw [take_succ_eq_append_getElem hmid] at hx
          rcases mem_append.mp hx with hx' | hx'
          · exact hfirst x hx' _ mem_cons_self hq
          · rwa [mem_singleton.mp hx']
        · rwa [show first + len / 2 + 1 + (len - len / 2 - 1) = first + len by omega]
      | false =>
        rw [if_neg Bool.false_ne_true]
        refine ih (by omega) (by omega) hbefore ?_
        intro x hx
        rw [drop_eq_getElem_cons hmid] at hx
        rcases mem_cons.mp hx with rfl | hx'
        · exact hq
        · exact Bool.eq_false_iff.mpr fun h => absurd (hafter x hx' h) (by simp [hq])

theorem partitionPoint_spec (hp : ∀ x ∈ l, p x = pure (q x))
    (hmono : l.Pairwise fun a b => q b = true → q a = true) :
    ∃ n ≤ l.length, partitionPoint p l = pure n ∧ (∀ x ∈ l.take n, q x = true) ∧
      ∀ x ∈ l.drop n, q x = false := by
  refine search_spec hp hmono le_rfl (Nat.zero_add _).le ?_ ?_
  · simp
  · simp

end Search

theorem search_map {β : Type*} (p : β → m Bool) (f : α → β) (l : List α)
    (fuel first len : ℕ) : search p (l.map f) fuel first len = search (p ∘ f) l fuel first len := by
  induction fuel generalizing first len with
  | zero => rfl
  | succ fuel ih =>
    rw [search, search, getElem?_map]
    cases l[first + len / 2]? with
    | none => rfl
    | some x => simp only [Option.map_some, ih, Function.comp_apply]

theorem partitionPoint_map {β : Type*} (p : β → m Bool) (f : α → β) (l : List α) :
    partitionPoint p (l.map f) = partitionPoint (p ∘ f) l := by
  rw [partitionPoint, search_map, length_map, partitionPoint]

/-! ### `std::lower_bound` -/

section LowerBound

variable {K : Type*} [LinearOrder K] {l : List K} {k : K}

/-- The first position whose element is not less than `k`. -/
def lowerBound (l : List K) (k : K) : ℕ :=
  Id.run (partitionPoint (fun x => pure (decide (x < k))) l)

theorem lowerBound_spec (hl : l.Pairwise (· < ·)) :
    lowerBound l k ≤ l.length ∧ ∀ i (hi : i < l.length), l[i] < k ↔ i < lowerBound l k := by
  have hmono : l.Pairwise fun a b => decide (b < k) = true → decide (a < k) = true := by
    refine hl.imp fun {a b} hab hb => ?_
    rw [decide_eq_true_eq] at hb ⊢
    exact hab.trans hb
  obtain ⟨n, hn, hpoint, hbefore, hbehind⟩ :=
    partitionPoint_spec (m := Id) (p := fun x => pure (decide (x < k))) (fun _ _ => rfl) hmono
  have hbound : lowerBound l k = n := hpoint
  rw [hbound]
  refine ⟨hn, fun i hi => ⟨fun hlt => ?_, fun hlt => ?_⟩⟩
  · by_contra hge
    have hmem : l[i] ∈ l.drop n := by
      refine mem_iff_getElem?.mpr ⟨i - n, ?_⟩
      rw [getElem?_drop, Nat.add_sub_cancel' (Nat.not_lt.mp hge), getElem?_eq_getElem hi]
    exact absurd hlt (by simpa using hbehind _ hmem)
  · have hmem : l[i] ∈ l.take n := by
      refine mem_iff_getElem?.mpr ⟨i, ?_⟩
      rw [getElem?_take_of_lt hlt, getElem?_eq_getElem hi]
    simpa using hbefore _ hmem

theorem lowerBound_eq (hl : l.Pairwise (· < ·)) {n : ℕ} (hn : n ≤ l.length)
    (h : ∀ i (hi : i < l.length), l[i] < k ↔ i < n) : lowerBound l k = n := by
  obtain ⟨hle, hspec⟩ := lowerBound_spec (k := k) hl
  rcases Nat.lt_trichotomy (lowerBound l k) n with hlt | heq | hgt
  · exact absurd ((hspec _ (hlt.trans_le hn)).mp ((h _ (hlt.trans_le hn)).mpr hlt))
      (Nat.lt_irrefl _)
  · exact heq
  · exact absurd ((h _ (hgt.trans_le hle)).mp ((hspec _ (hgt.trans_le hle)).mpr hgt))
      (Nat.lt_irrefl _)

end LowerBound

end BinarySearch
