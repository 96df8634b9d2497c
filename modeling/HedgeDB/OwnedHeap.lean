/-
HedgeDB/OwnedHeap.lean

A heap whose buffers have one owner each.

Buffers are numbered in the order they are allocated, so that an address that is used again
is another buffer.  `free` is partial: there is no result for an address that is not
allocated, and a run in which every `free` has one frees nothing twice.

`Ledger` says where the buffers are: each of them is at one address or has been freed once.
`Owned` adds who has them: an owner's address is allocated, no two owners have the same one,
and every allocated address has an owner.  Allocating for an owner, freeing for one, handing
a buffer over and writing into it keep this.
-/
import Mathlib.Data.List.Nodup
import Mathlib.Logic.Function.Basic

namespace OwnedHeap

open List Function

variable {α κ : Type*}

/-- The buffers by address, each with its number; how many there were, and those freed. -/
structure Heap (α : Type*) where
  cells : ℕ → Option (ℕ × α)
  count : ℕ
  freed : List ℕ

namespace Heap

def empty : Heap α := ⟨fun _ => none, 0, []⟩

def alloc (h : Heap α) (a : ℕ) (x : α) : Heap α :=
  { h with cells := update h.cells a (some (h.count, x)), count := h.count + 1 }

/-- Without the buffer `n` at `a`. -/
def discard (h : Heap α) (a n : ℕ) : Heap α :=
  { h with cells := update h.cells a none, freed := n :: h.freed }

/-- With other contents in the buffer `n` at `a`. -/
def overwrite (h : Heap α) (a n : ℕ) (x : α) : Heap α :=
  { h with cells := update h.cells a (some (n, x)) }

def free (h : Heap α) (a : ℕ) : Option (Heap α) :=
  (h.cells a).map fun c => h.discard a c.1

def store (h : Heap α) (a : ℕ) (x : α) : Option (Heap α) :=
  (h.cells a).map fun c => h.overwrite a c.1 x

def read (h : Heap α) (a : ℕ) : Option α := (h.cells a).map Prod.snd

/-- Every buffer is at one address or has been freed, once. -/
structure Ledger (h : Heap α) : Prop where
  bound : ∀ {a n x}, h.cells a = some (n, x) → n < h.count
  place : ∀ {a b n x y}, h.cells a = some (n, x) → h.cells b = some (n, y) → a = b
  nodup : h.freed.Nodup
  freed : ∀ n, n ∈ h.freed ↔ n < h.count ∧ ∀ a x, h.cells a ≠ some (n, x)

/-- Every allocated buffer has one owner. -/
structure Owned (h : Heap α) (owner : κ → Option ℕ) : Prop extends Ledger h where
  allocated : ∀ {k a}, owner k = some a → ∃ c, h.cells a = some c
  unique : ∀ {k k' a}, owner k = some a → owner k' = some a → k = k'
  covered : ∀ {a c}, h.cells a = some c → ∃ k, owner k = some a

variable {h : Heap α} {a n : ℕ} {x y : α}

/-! ### The operations on the cells -/

@[simp] theorem alloc_cells_self : (h.alloc a x).cells a = some (h.count, x) :=
  update_self ..

variable {b : ℕ}

theorem alloc_cells_of_ne (hb : b ≠ a) : (h.alloc a x).cells b = h.cells b :=
  update_of_ne hb ..

@[simp] theorem discard_cells_self : (h.discard a n).cells a = none :=
  update_self ..

theorem discard_cells_of_ne (hb : b ≠ a) : (h.discard a n).cells b = h.cells b :=
  update_of_ne hb ..

@[simp] theorem overwrite_cells_self : (h.overwrite a n x).cells a = some (n, x) :=
  update_self ..

theorem overwrite_cells_of_ne (hb : b ≠ a) : (h.overwrite a n x).cells b = h.cells b :=
  update_of_ne hb ..

theorem free_eq (ha : h.cells a = some (n, x)) : h.free a = some (h.discard a n) := by
  rw [free, ha, Option.map_some]

theorem store_eq (ha : h.cells a = some (n, x)) : h.store a y = some (h.overwrite a n y) := by
  rw [store, ha, Option.map_some]

theorem overwrite_alloc : (h.alloc a x).overwrite a h.count y = h.alloc a y := by
  rw [overwrite, alloc, alloc, update_idem]

/-! ### The ledger -/

theorem Ledger.alloc (hl : Ledger h) (ha : h.cells a = none) : Ledger (h.alloc a x) := by
  -- the new buffer is the only one with its number
  have hcell : ∀ {b m y}, (h.alloc a x).cells b = some (m, y) →
      b = a ∧ m = h.count ∨ h.cells b = some (m, y) := by
    intro b m y hb
    by_cases hba : b = a
    · rw [hba, alloc_cells_self] at hb
      cases hb
      exact .inl ⟨hba, rfl⟩
    · rw [alloc_cells_of_ne hba] at hb
      exact .inr hb
  refine ⟨fun hb => ?_, fun hb hc => ?_, hl.nodup, fun m => ?_⟩
  · rcases hcell hb with ⟨-, rfl⟩ | hold
    · exact Nat.lt_succ_self _
    · exact Nat.lt_succ_of_lt (hl.bound hold)
  · rcases hcell hb with ⟨hba, hnb⟩ | hb' <;> rcases hcell hc with ⟨hca, hnc⟩ | hc'
    · rw [hba, hca]
    · exact absurd (hl.bound hc') (hnb ▸ Nat.lt_irrefl _)
    · exact absurd (hl.bound hb') (hnc ▸ Nat.lt_irrefl _)
    · exact hl.place hb' hc'
  · show m ∈ h.freed ↔ m < h.count + 1 ∧ ∀ b y, (h.alloc a x).cells b ≠ some (m, y)
    rw [hl.freed]
    constructor
    · rintro ⟨hm, hnone⟩
      refine ⟨Nat.lt_succ_of_lt hm, fun b y hb => ?_⟩
      rcases hcell hb with ⟨-, rfl⟩ | hb
      · exact Nat.lt_irrefl _ hm
      · exact hnone b y hb
    · rintro ⟨hm, hnone⟩
      have hne : m ≠ h.count := by
        rintro rfl
        exact hnone a x alloc_cells_self
      refine ⟨by omega, fun b y hb => ?_⟩
      have hba : b ≠ a := by
        rintro rfl
        rw [ha] at hb
        cases hb
      exact hnone b y (by rw [alloc_cells_of_ne hba, hb])

theorem discard_cells_eq {c : ℕ × α} (hb : (h.discard a n).cells b = some c) :
    b ≠ a ∧ h.cells b = some c := by
  by_cases hba : b = a
  · rw [hba, discard_cells_self] at hb
    cases hb
  · rw [discard_cells_of_ne hba] at hb
    exact ⟨hba, hb⟩

theorem Ledger.discard (hl : Ledger h) (ha : h.cells a = some (n, x)) :
    Ledger (h.discard a n) := by
  have hcell : ∀ {b c}, (h.discard a n).cells b = some c → b ≠ a ∧ h.cells b = some c :=
    discard_cells_eq
  refine ⟨fun hb => hl.bound (hcell hb).2, fun hb hc => hl.place (hcell hb).2 (hcell hc).2,
    nodup_cons.mpr ⟨fun hn => ((hl.freed n).mp hn).2 a x ha, hl.nodup⟩, fun m => ?_⟩
  show m ∈ n :: h.freed ↔ m < h.count ∧ ∀ b y, (h.discard a n).cells b ≠ some (m, y)
  rw [mem_cons, hl.freed]
  constructor
  · rintro (rfl | ⟨hm, hnone⟩)
    · exact ⟨hl.bound ha, fun b y hb => (hcell hb).1 (hl.place (hcell hb).2 ha)⟩
    · exact ⟨hm, fun b y hb => hnone b y (hcell hb).2⟩
  · rintro ⟨hm, hnone⟩
    by_cases hmn : m = n
    · exact .inl hmn
    · refine .inr ⟨hm, fun b y hb => ?_⟩
      have hba : b ≠ a := by
        rintro rfl
        rw [ha] at hb
        cases hb
        exact hmn rfl
      exact hnone b y (by rw [discard_cells_of_ne hba, hb])

theorem Ledger.overwrite (hl : Ledger h) (ha : h.cells a = some (n, x)) :
    Ledger (h.overwrite a n y) := by
  -- every cell keeps its number
  have hcell : ∀ b m, (∃ z, (h.overwrite a n y).cells b = some (m, z)) ↔
      ∃ z, h.cells b = some (m, z) := by
    intro b m
    by_cases hba : b = a
    · subst hba
      simp [ha]
    · rw [overwrite_cells_of_ne hba]
  refine ⟨fun hb => ?_, fun hb hc => ?_, hl.nodup, fun m => ?_⟩
  · obtain ⟨z, hz⟩ := (hcell _ _).mp ⟨_, hb⟩
    exact hl.bound hz
  · obtain ⟨z, hz⟩ := (hcell _ _).mp ⟨_, hb⟩
    obtain ⟨w, hw⟩ := (hcell _ _).mp ⟨_, hc⟩
    exact hl.place hz hw
  · show m ∈ h.freed ↔ m < h.count ∧ ∀ b z, (h.overwrite a n y).cells b ≠ some (m, z)
    rw [hl.freed]
    refine and_congr_right fun _ => forall_congr' fun b => ?_
    rw [← not_exists, ← not_exists, hcell]

/-! ### The owners -/

section Owners

variable [DecidableEq κ] {owner : κ → Option ℕ} {k k' : κ}

omit [DecidableEq κ] in
theorem owned_empty : Owned (empty : Heap α) fun _ : κ => none where
  bound hc := by cases hc
  place hc := by cases hc
  nodup := nodup_nil
  freed n := by simp [empty]
  allocated ho := by cases ho
  unique ho := by cases ho
  covered hc := by cases hc

theorem update_owner_eq {o : Option ℕ} {j : κ} (hj : update owner k o j = some b) :
    j = k ∧ o = some b ∨ j ≠ k ∧ owner j = some b := by
  by_cases hjk : j = k
  · subst hjk
    rw [update_self] at hj
    exact .inl ⟨rfl, hj⟩
  · rw [update_of_ne hjk] at hj
    exact .inr ⟨hjk, hj⟩

theorem Owned.alloc (ho : Owned h owner) (hk : owner k = none) (ha : h.cells a = none) :
    Owned (h.alloc a x) (update owner k (some a)) := by
  -- nobody owns an address that is not allocated
  have hfresh : ∀ j, owner j ≠ some a := by
    intro j hj
    obtain ⟨c, hc⟩ := ho.allocated hj
    rw [ha] at hc
    cases hc
  refine ⟨ho.toLedger.alloc ha, fun {j b} hj => ?_, fun {i j b} hi hj => ?_, fun {b c} hb => ?_⟩
  · by_cases hba : b = a
    · exact ⟨_, by rw [hba, alloc_cells_self]⟩
    · rcases update_owner_eq hj with ⟨-, hb⟩ | ⟨-, hj⟩
      · exact absurd (Option.some.inj hb).symm hba
      · rw [alloc_cells_of_ne hba]
        exact ho.allocated hj
  · rcases update_owner_eq hi with ⟨hik, hb⟩ | ⟨-, hi'⟩ <;>
      rcases update_owner_eq hj with ⟨hjk, hb'⟩ | ⟨-, hj'⟩
    · rw [hik, hjk]
    · exact absurd (hb ▸ hj') (hfresh j)
    · exact absurd (hb' ▸ hi') (hfresh i)
    · exact ho.unique hi' hj'
  · by_cases hba : b = a
    · exact ⟨k, by rw [update_self, hba]⟩
    · rw [alloc_cells_of_ne hba] at hb
      obtain ⟨j, hj⟩ := ho.covered hb
      have hjk : j ≠ k := by
        rintro rfl
        rw [hk] at hj
        cases hj
      exact ⟨j, by rw [update_of_ne hjk, hj]⟩

theorem Owned.free (ho : Owned h owner) (hk : owner k = some a) :
    ∃ h', h.free a = some h' ∧ Owned h' (update owner k none) ∧
      ∀ b, b ≠ a → h'.cells b = h.cells b := by
  obtain ⟨⟨n, x⟩, ha⟩ := ho.allocated hk
  refine ⟨_, free_eq ha, ⟨ho.toLedger.discard ha, fun {j b} hj => ?_, fun {i j b} hi hj => ?_,
    fun {b c} hb => ?_⟩, fun b hb => discard_cells_of_ne hb⟩
  · rcases update_owner_eq hj with ⟨-, hb⟩ | ⟨hjk, hj⟩
    · cases hb
    · have hba : b ≠ a := by
        rintro rfl
        exact hjk (ho.unique hj hk)
      rw [discard_cells_of_ne hba]
      exact ho.allocated hj
  · rcases update_owner_eq hi with ⟨-, hb⟩ | ⟨-, hi⟩
    · cases hb
    · rcases update_owner_eq hj with ⟨-, hb⟩ | ⟨-, hj⟩
      · cases hb
      · exact ho.unique hi hj
  · obtain ⟨hba, hb⟩ := discard_cells_eq hb
    obtain ⟨j, hj⟩ := ho.covered hb
    have hjk : j ≠ k := by
      rintro rfl
      rw [hk] at hj
      exact hba (Option.some.inj hj).symm
    exact ⟨j, by rw [update_of_ne hjk, hj]⟩

theorem Owned.transfer (ho : Owned h owner) (hk : owner k = some a) (hk' : owner k' = none) :
    Owned h (update (update owner k none) k' (some a)) := by
  have hcases : ∀ {j b}, update (update owner k none) k' (some a) j = some b →
      j = k' ∧ b = a ∨ j ≠ k ∧ owner j = some b := by
    intro j b hj
    rcases update_owner_eq hj with ⟨hj, hb⟩ | ⟨-, hj⟩
    · exact .inl ⟨hj, (Option.some.inj hb).symm⟩
    · rcases update_owner_eq hj with ⟨-, hb⟩ | hj
      · cases hb
      · exact .inr hj
  refine ⟨ho.toLedger, fun {j b} hj => ?_, fun {i j b} hi hj => ?_, fun {b c} hb => ?_⟩
  · rcases hcases hj with ⟨-, rfl⟩ | ⟨-, hj⟩
    · exact ho.allocated hk
    · exact ho.allocated hj
  · rcases hcases hi with ⟨hik', hb⟩ | ⟨hik, hi'⟩ <;>
      rcases hcases hj with ⟨hjk', hb'⟩ | ⟨hjk, hj'⟩
    · rw [hik', hjk']
    · exact absurd (ho.unique (hb ▸ hj') hk) hjk
    · exact absurd (ho.unique (hb' ▸ hi') hk) hik
    · exact ho.unique hi' hj'
  · obtain ⟨j, hj⟩ := ho.covered hb
    by_cases hjk : j = k
    · subst hjk
      rw [hk] at hj
      exact ⟨k', by rw [update_self, hj]⟩
    · have hjk' : j ≠ k' := by
        rintro rfl
        rw [hk'] at hj
        cases hj
      exact ⟨j, by rw [update_of_ne hjk', update_of_ne hjk, hj]⟩

omit [DecidableEq κ] in
theorem Owned.overwrite (ho : Owned h owner) (ha : h.cells a = some (n, x)) :
    Owned (h.overwrite a n y) owner := by
  refine ⟨ho.toLedger.overwrite ha, fun {j b} hj => ?_, ho.unique, fun {b c} hb => ?_⟩
  · by_cases hba : b = a
    · exact ⟨_, by rw [hba, overwrite_cells_self]⟩
    · rw [overwrite_cells_of_ne hba]
      exact ho.allocated hj
  · by_cases hba : b = a
    · exact ho.covered (hba ▸ ha)
    · rw [overwrite_cells_of_ne hba] at hb
      exact ho.covered hb

omit [DecidableEq κ] in
/-- **Every buffer is with one owner, or it has been freed once and is with none.** -/
theorem Owned.freed_once (ho : Owned h owner) {n : ℕ} (hn : n < h.count) :
    (h.freed.count n = 0 ∧ ∃! k, ∃ a x, owner k = some a ∧ h.cells a = some (n, x)) ∨
      (h.freed.count n = 1 ∧ ∀ k a x, owner k = some a → h.cells a ≠ some (n, x)) := by
  by_cases hmem : n ∈ h.freed
  · exact .inr ⟨count_eq_one_of_mem ho.nodup hmem, fun _ a x _ => ((ho.freed n).mp hmem).2 a x⟩
  · refine .inl ⟨count_eq_zero_of_not_mem hmem, ?_⟩
    rw [ho.freed] at hmem
    push Not at hmem
    obtain ⟨a, x, ha⟩ := hmem hn
    obtain ⟨k, hk⟩ := ho.covered ha
    refine ⟨k, ⟨a, x, hk, ha⟩, ?_⟩
    rintro j ⟨b, y, hj, hb⟩
    obtain rfl := ho.place hb ha
    exact ho.unique hj hk

end Owners

end Heap

end OwnedHeap
