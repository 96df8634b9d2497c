/-
HedgeDB/NextFit.lean

Next-fit packing: items go one after the other into bins of one size, and a new
bin is opened when an item does not fit behind the last one.

A packing in progress is the number of bins opened and how full the last one is,
ordered lexicographically.  `place` is monotone and inflationary in that order, so
leaving items out never takes more bins (`pack_le_of_sublist`).
-/
import Mathlib.Algebra.Order.Ring.Nat
import Mathlib.Data.Prod.Lex
import Mathlib.Tactic.Common

namespace NextFit

variable {size x : ℕ} {s t : ℕ ×ₗ ℕ} {l l' : List ℕ}

/-- The packing after one more item. -/
def place (size : ℕ) (s : ℕ ×ₗ ℕ) (x : ℕ) : ℕ ×ₗ ℕ :=
  if (ofLex s).2 + x > size then toLex ((ofLex s).1 + 1, x)
  else toLex ((ofLex s).1, (ofLex s).2 + x)

/-- The packing after a list of items. -/
def pack (size : ℕ) (s : ℕ ×ₗ ℕ) (l : List ℕ) : ℕ ×ₗ ℕ := l.foldl (place size) s

def bins (s : ℕ ×ₗ ℕ) : ℕ := (ofLex s).1

@[simp] theorem pack_nil : pack size s [] = s := rfl

@[simp] theorem pack_cons : pack size s (x :: l) = pack size (place size s x) l := rfl

theorem place_of_lt {k u : ℕ} (h : size < u + x) :
    place size (toLex (k, u)) x = toLex (k + 1, x) := if_pos h

theorem place_of_le {k u : ℕ} (h : u + x ≤ size) :
    place size (toLex (k, u)) x = toLex (k, u + x) := if_neg h.not_gt

theorem le_place (size : ℕ) (s : ℕ ×ₗ ℕ) (x : ℕ) : s ≤ place size s x := by
  rw [place, Prod.Lex.le_iff]
  split
  · exact .inl (Nat.lt_succ_self _)
  · exact .inr ⟨rfl, Nat.le_add_right _ _⟩

theorem place_mono (h : s ≤ t) : place size s x ≤ place size t x := by
  rw [Prod.Lex.le_iff] at h
  rw [place, place, Prod.Lex.le_iff]
  -- both items go to a new bin, or only one of them does, or neither
  split <;> split <;> simp only [ofLex_toLex] <;> omega

theorem pack_mono (h : s ≤ t) : pack size s l ≤ pack size t l := by
  induction l generalizing s t with
  | nil => exact h
  | cons x l ih => exact ih (place_mono h)

theorem le_pack : s ≤ pack size s l := by
  induction l generalizing s with
  | nil => exact le_rfl
  | cons x l ih => exact (le_place size s x).trans ih

theorem pack_le_of_sublist (h : l.Sublist l') : pack size s l ≤ pack size s l' := by
  induction h generalizing s with
  | slnil => exact le_rfl
  | cons x _ ih => exact ih.trans (pack_mono (le_place size s x))
  | cons_cons x _ ih => exact ih

theorem bins_mono (h : s ≤ t) : bins s ≤ bins t := by
  rcases Prod.Lex.le_iff.mp h with hlt | ⟨heq, -⟩
  · exact hlt.le
  · exact heq.le

theorem sum_le_pack (size : ℕ) {s : ℕ ×ₗ ℕ} {l : List ℕ} (hs : (ofLex s).2 ≤ size)
    (hl : ∀ x ∈ l, x ≤ size) :
    bins s * size + (ofLex s).2 + l.sum ≤ bins (pack size s l) * size + size := by
  induction l generalizing s with
  | nil => simpa using hs
  | cons x l ih =>
    obtain ⟨hx, hl⟩ := List.forall_mem_cons.mp hl
    obtain ⟨⟨k, u⟩, rfl⟩ := toLex.surjective s
    rw [pack_cons, List.sum_cons]
    by_cases hfull : size < u + x
    · have := ih (s := toLex (k + 1, x)) hx hl
      rw [place_of_lt hfull]
      simp only [bins, ofLex_toLex, Nat.add_mul, Nat.one_mul] at this hs ⊢
      omega
    · have hfits := Nat.not_lt.mp hfull
      have := ih (s := toLex (k, u + x)) hfits hl
      rw [place_of_le hfits]
      simp only [bins, ofLex_toLex] at this ⊢
      omega

end NextFit
