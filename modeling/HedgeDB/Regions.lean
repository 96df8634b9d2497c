/-
HedgeDB/Regions.lean

Stretches of an address space.

A region is an address and a length.  Regions that lie within regions apart from each
other are apart, and regions of a space that are apart from each other together are not
longer than the space (`sum_len_le`).
-/
import Mathlib.Algebra.BigOperators.Group.List.Basic
import Mathlib.Algebra.Order.Ring.Nat
import Mathlib.Order.Interval.Finset.Nat

namespace Regions

/-- The bytes from `start` on. -/
structure Region where
  start : ℕ
  len : ℕ
  deriving DecidableEq, Repr

namespace Region

variable {r r' s s' : Region}

/-- The address behind the last byte. -/
def stop (r : Region) : ℕ := r.start + r.len

def Within (r s : Region) : Prop := s.start ≤ r.start ∧ r.stop ≤ s.stop

def Apart (r s : Region) : Prop := r.stop ≤ s.start ∨ s.stop ≤ r.start

instance decidableWithin (r s : Region) : Decidable (r.Within s) :=
  inferInstanceAs (Decidable (_ ∧ _))

instance decidableApart (r s : Region) : Decidable (r.Apart s) :=
  inferInstanceAs (Decidable (_ ∨ _))

theorem Apart.symm (h : r.Apart s) : s.Apart r := Or.symm h

theorem Apart.of_within (h : r'.Apart s') (hr : r.Within r') (hs : s.Within s') : r.Apart s := by
  rcases h with h | h
  · exact .inl (hr.2.trans (h.trans hs.1))
  · exact .inr (hs.2.trans (h.trans hr.1))

def bytes (r : Region) : Finset ℕ := Finset.Ico r.start r.stop

theorem card_bytes (r : Region) : r.bytes.card = r.len := by
  simp [bytes, stop]

theorem Apart.disjoint_bytes (h : r.Apart s) : Disjoint r.bytes s.bytes := by
  refine Finset.disjoint_left.mpr fun x hr hs => ?_
  rw [bytes, Finset.mem_Ico] at hr hs
  rcases h with h | h <;> omega

end Region

/-- The bytes of all regions of a list. -/
def allBytes (l : List Region) : Finset ℕ := l.foldr (fun r used => r.bytes ∪ used) ∅

variable {l : List Region}

theorem mem_allBytes {x : ℕ} : x ∈ allBytes l ↔ ∃ r ∈ l, x ∈ r.bytes := by
  induction l with
  | nil => simp [allBytes]
  | cons r l ih =>
    have hunion : allBytes (r :: l) = r.bytes ∪ allBytes l := rfl
    simp [hunion, ih]

theorem card_allBytes (h : l.Pairwise Region.Apart) :
    (allBytes l).card = (l.map Region.len).sum := by
  induction l with
  | nil => rfl
  | cons r l ih =>
    obtain ⟨hr, hl⟩ := List.pairwise_cons.mp h
    have hdisj : Disjoint r.bytes (allBytes l) := by
      refine Finset.disjoint_left.mpr fun x hx hall => ?_
      obtain ⟨s, hs, hxs⟩ := mem_allBytes.mp hall
      exact Finset.disjoint_left.mp (hr s hs).disjoint_bytes hx hxs
    show (r.bytes ∪ allBytes l).card = _
    rw [Finset.card_union_of_disjoint hdisj, ih hl, Region.card_bytes, List.map_cons, List.sum_cons]

theorem sum_len_le {size : ℕ} (hapart : l.Pairwise Region.Apart) (hin : ∀ r ∈ l, r.stop ≤ size) :
    (l.map Region.len).sum ≤ size := by
  have hsub : allBytes l ⊆ Finset.range size := by
    intro x hx
    obtain ⟨r, hr, hxr⟩ := mem_allBytes.mp hx
    have hstop := hin r hr
    rw [Region.bytes, Finset.mem_Ico] at hxr
    exact Finset.mem_range.mpr (hxr.2.trans_le hstop)
  calc (l.map Region.len).sum = (allBytes l).card := (card_allBytes hapart).symm
    _ ≤ (Finset.range size).card := Finset.card_le_card hsub
    _ = size := Finset.card_range size

end Regions
