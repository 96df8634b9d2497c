/-
HedgeDB/Arena.lean

The value arena of a table (`src/db/arena_allocator.h`, for bytes).

Memory comes in extents of one size, up to a budget.  An allocation is taken
from the current extent, or from a new one when it does not fit there; nothing
is ever given back.  A pointer is modelled as the number of its extent and the
offset in it.  `posix_memalign` is assumed to succeed: the only refusals are the
ones the arena makes itself.
-/
import HedgeDB.NextFit
import HedgeDB.Types

namespace HedgeDB

open NextFit

/-- `hedge::round_up` to a multiple of `target`. -/
def roundUp (value target : ℕ) : ℕ := (value + target - 1) / target * target

/-- `arena_allocator<std::byte>`. -/
structure Arena where
  budget : ℕ
  extentSize : ℕ
  totalAllocated : ℕ := 0
  extents : ℕ := 0
  currExtent : Option ℕ := none
  currentSlotIndex : ℕ := 0
  deriving DecidableEq, Repr

namespace Arena

def allocateNewExtent (a : Arena) : Arena :=
  if a.totalAllocated + a.extentSize > a.budget then { a with currExtent := none }
  else
    { a with
      totalAllocated := a.totalAllocated + a.extentSize
      extents := a.extents + 1
      currExtent := some a.extents }

/-- The constructor, which takes the first extent. -/
def make (budget extentBytesHint : ℕ) : Arena :=
  allocateNewExtent { budget, extentSize := max extentBytesHint 4096 }

/-- The default `extent_bytes_hint`. -/
def defaultExtentBytes : ℕ := 4 * 1024 * 1024

/-- The end of `_allocate_many_impl`: `nItems` from the current extent. -/
def takeItems (a : Arena) (nItems : ℕ) : Option (ℕ × ℕ) × Arena :=
  match a.currExtent with
  | none => (none, a)
  | some extent =>
      (some (extent, a.currentSlotIndex),
        { a with currentSlotIndex := a.currentSlotIndex + nItems })

def allocateManyImpl (a : Arena) (nItems : ℕ) : Option (ℕ × ℕ) × Arena :=
  if a.currentSlotIndex + nItems > a.extentSize then
    -- larger than any extent
    if nItems > a.extentSize then (none, a)
    else takeItems { a.allocateNewExtent with currentSlotIndex := 0 } nItems
  else takeItems a nItems

def allocateMany (a : Arena) (nItems alignment : ℕ) : Option (ℕ × ℕ) × Arena :=
  a.allocateManyImpl (roundUp nItems alignment)

/-- Every allocation of a sequence succeeds. -/
def fits (alignment : ℕ) : Arena → List ℕ → Bool
  | _, [] => true
  | a, n :: rest =>
      (a.allocateMany n alignment).1.isSome && fits alignment (a.allocateMany n alignment).2 rest

/-! ### What fits

Taking items from an arena is next-fit packing, with the extents as bins. -/

/-- An arena with a current extent takes a sequence exactly if no item is larger
than an extent and the packing stays within the budget. -/
theorem fits_iff {a : Arena} {alignment k : ℕ} {l : List ℕ} (hext : 0 < a.extentSize)
    (hcurr : a.currExtent.isSome) (htotal : a.totalAllocated = k * a.extentSize)
    (hbudget : a.totalAllocated ≤ a.budget) :
    a.fits alignment l = true ↔
      (∀ n ∈ l, roundUp n alignment ≤ a.extentSize) ∧
        bins (pack a.extentSize (toLex (k, a.currentSlotIndex)) (l.map (roundUp · alignment))) ≤
          a.budget / a.extentSize := by
  induction l generalizing a k with
  | nil =>
    have hk : k ≤ a.budget / a.extentSize :=
      (Nat.le_div_iff_mul_le hext).mpr (htotal ▸ hbudget)
    exact iff_of_true rfl ⟨nofun, hk⟩
  | cons n l ih =>
    obtain ⟨extent, hextent⟩ := Option.isSome_iff_exists.mp hcurr
    rw [List.map_cons, pack_cons, fits, allocateMany, allocateManyImpl, List.forall_mem_cons]
    by_cases hfull : a.currentSlotIndex + roundUp n alignment > a.extentSize
    · rw [if_pos hfull, place_of_lt hfull]
      by_cases hlarge : roundUp n alignment > a.extentSize
      · -- larger than an extent
        rw [if_pos hlarge]
        exact iff_of_false (by simp) fun h => absurd h.1.1 hlarge.not_ge
      · rw [if_neg hlarge, allocateNewExtent]
        by_cases hover : a.totalAllocated + a.extentSize > a.budget
        · -- the packing needs an extent more than the budget has
          rw [if_pos hover]
          refine iff_of_false (by simp [takeItems]) fun h => ?_
          have hbins := (bins_mono (le_pack ..)).trans h.2
          have hmul := (Nat.le_div_iff_mul_le hext).mp hbins
          simp only [bins, ofLex_toLex, Nat.add_mul, Nat.one_mul] at hmul
          omega
        · rw [if_neg hover]
          have hmul : a.totalAllocated + a.extentSize = (k + 1) * a.extentSize := by
            rw [Nat.add_mul, Nat.one_mul, htotal]
          simp only [takeItems, Option.isSome_some, Bool.true_and, Nat.zero_add]
          refine Iff.trans (ih ?_ ?_ hmul ?_) ?_
          · exact hext
          · rfl
          · exact Nat.not_lt.mp hover
          · simp only [Nat.not_lt.mp hlarge, true_and]
    · rw [if_neg hfull, place_of_le (Nat.not_lt.mp hfull)]
      simp only [takeItems, hextent, Option.isSome_some, Bool.true_and]
      refine Iff.trans (ih ?_ ?_ htotal ?_) ?_
      · exact hext
      · rfl
      · exact hbudget
      · have hsmall : roundUp n alignment ≤ a.extentSize := by omega
        simp only [hsmall, true_and]

/-- A new arena takes a sequence exactly if it is empty or its packing stays within
the budget. -/
theorem fits_make_iff {budget hint alignment : ℕ} {l : List ℕ} :
    (make budget hint).fits alignment l = true ↔
      l = [] ∨ (∀ n ∈ l, roundUp n alignment ≤ max hint 4096) ∧
        bins (pack (max hint 4096) (toLex (1, 0)) (l.map (roundUp · alignment))) ≤
          budget / max hint 4096 := by
  have hext : 0 < max hint 4096 := by omega
  rw [make, allocateNewExtent]
  by_cases hover : 0 + max hint 4096 > budget
  · -- not even the first extent
    rw [if_pos hover]
    have hzero : budget / max hint 4096 = 0 := Nat.div_eq_of_lt (by omega)
    rcases l with - | ⟨n, l⟩
    · exact iff_of_true rfl (.inl rfl)
    · refine iff_of_false ?_ ?_
      · simp only [fits, allocateMany, allocateManyImpl, allocateNewExtent, if_pos hover, takeItems]
        split <;> [split; skip] <;> simp
      · rintro (h | ⟨-, h⟩)
        · cases h
        · have hbins := (bins_mono (le_pack ..)).trans h
          rw [hzero] at hbins
          exact absurd hbins (by decide)
  · rw [if_neg hover]
    refine (fits_iff (k := 1) hext rfl (by simp) (Nat.not_lt.mp hover)).trans ?_
    refine ⟨.inr, ?_⟩
    rintro (rfl | h)
    · exact ⟨nofun, (Nat.le_div_iff_mul_le hext).mpr (by simpa [bins] using hover)⟩
    · exact h

end Arena

end HedgeDB
