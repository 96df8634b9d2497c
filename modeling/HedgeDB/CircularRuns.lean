/-
HedgeDB/CircularRuns.lean

Runs in a circular table.

An element has a home slot and stands in that slot or behind it, with no empty slot in
between.  The elements of one home stand together, in the order of their remainders, and
the homes grow along the table.  Three bits of a slot say this locally: whether the slot is
the home of an element, whether the element in it has the home of the one before, and
whether it is behind its home.

The table is unrolled: a position is an integer, and slot `p + n` is slot `p`.  How far
each element is behind its home is the function `d`, and `Layout` says when the bits fit it.
Everything but `occupied` is said about neighbours, so that it can be checked in one round
of the table, and no place where the table is cut open has to be chosen.

`RunStart` is where the run of a home starts or would start; `Layout.insert` puts an element
at its place and moves those behind it by one slot, up to the next empty one.
-/
import Mathlib.Algebra.Ring.Periodic
import Mathlib.Algebra.Order.Ring.Int
import Mathlib.Data.Finset.Card

namespace CircularRuns

open Option

/-- The bits of a slot, and the remainder of the element in it. -/
structure Slot (ρ : Type*) where
  occupied : Bool
  continuation : Bool
  shifted : Bool
  remainder : ρ

def Slot.isEmpty {ρ : Type*} (s : Slot ρ) : Bool :=
  !s.occupied && !s.continuation && !s.shifted

variable {ρ : Type*} [LinearOrder ρ] {n : ℤ} {T T' : ℤ → Slot ρ} {d : ℤ → Option ℕ}
  {flagged : ℤ → Prop}

/-- Slot `p` and the one before it. -/
structure Fits (T : ℤ → Slot ρ) (d : ℤ → Option ℕ) (p : ℤ) : Prop where
  /-- An element behind its home follows one that comes before it. -/
  chained : ∀ k, d p = some (k + 1) → ∃ j, d (p - 1) = some j ∧
    (k < j ∨ j = k ∧ (T (p - 1)).remainder < (T p).remainder)
  continuation : (T p).continuation = true ↔ ∃ k, d p = some (k + 1) ∧ d (p - 1) = some k
  shifted : (T p).shifted = true ↔ ∃ k, d p = some (k + 1)

/-- `x` is the home of an element. -/
def HasRun (d : ℤ → Option ℕ) (x : ℤ) : Prop := ∃ k : ℕ, d (x + k) = some k

/-- There is an element with home `x` and remainder `r`. -/
def Stored (T : ℤ → Slot ρ) (d : ℤ → Option ℕ) (x : ℤ) (r : ρ) : Prop :=
  ∃ k : ℕ, d (x + k) = some k ∧ (T (x + k)).remainder = r

variable {x : ℤ}

omit [LinearOrder ρ] in
theorem Stored.hasRun {r : ρ} (h : Stored T d x r) : HasRun d x := by
  obtain ⟨k, hk, -⟩ := h
  exact ⟨k, hk⟩

/-- The bits of the slots are those of elements that are `d` behind their homes.  A slot that is
`flagged` is marked as a home that has no element yet. -/
structure Layout (n : ℤ) (T : ℤ → Slot ρ) (d : ℤ → Option ℕ) (flagged : ℤ → Prop) : Prop where
  slots : Function.Periodic T n
  places : Function.Periodic d n
  fits : ∀ p, Fits T d p
  occupied : ∀ x, (T x).occupied = true ↔ HasRun d x ∨ flagged x

theorem periodic_mul {β : Type*} {f : ℤ → β} (h : Function.Periodic f n) (m p : ℤ) :
    f (p + m * n) = f p := by
  have hper := h.int_mul m p
  rwa [Int.cast_id] at hper

theorem exists_round (hn : 0 < n) (x p : ℤ) : ∃ q m : ℤ, x ≤ q ∧ q < x + n ∧ p = q + m * n := by
  refine ⟨x + (p - x) % n, (p - x) / n, ?_, ?_, ?_⟩
  · have := Int.emod_nonneg (p - x) hn.ne'
    omega
  · have := Int.emod_lt_of_pos (p - x) hn
    omega
  · have := Int.emod_add_mul_ediv (p - x) n
    rw [Int.mul_comm] at this
    omega

variable {p q y e : ℤ} {k : ℕ}

namespace Layout

variable (h : Layout n T d flagged)

include h

/-! ### The order of the elements -/

theorem filled (hp : d p = some k) (hle : p - k ≤ y) (hy : y ≤ p) :
    ∃ j : ℕ, d y = some j ∧ y - j ≤ p - k := by
  obtain ⟨m, rfl⟩ : ∃ m : ℕ, y = p - m := ⟨(p - y).toNat, by omega⟩
  induction m with
  | zero => exact ⟨k, by simpa using hp, by omega⟩
  | succ m ih =>
    obtain ⟨j, hj, hhome⟩ := ih (by omega) (by omega)
    obtain ⟨j', rfl⟩ : ∃ j', j = j' + 1 := ⟨j - 1, by omega⟩
    obtain ⟨i, hi, hor⟩ := (h.fits _).chained _ hj
    refine ⟨i, ?_, ?_⟩
    · rw [← hi]
      congr 1
      push_cast
      omega
    · push_cast at hhome ⊢
      rcases hor with hlt | ⟨rfl, -⟩ <;> omega

variable {p' : ℤ} {k' : ℕ}

theorem home_le (hp : d p = some k) (hp' : d p' = some k') (hle : p ≤ p') : p - k ≤ p' - k' := by
  by_contra hlt
  obtain ⟨j, hj, hhome⟩ := h.filled hp' (show p' - k' ≤ p by omega) hle
  rw [hp] at hj
  cases hj
  omega

theorem between (hp : d p = some k) (hp' : d p' = some k') (hhome : p - k = p' - k') (hq : p ≤ q)
    (hq' : q ≤ p') : ∃ j : ℕ, d q = some j ∧ q - j = p - k := by
  obtain ⟨j, hj, hle⟩ := h.filled hp' (show p' - k' ≤ q by omega) hq'
  have hge := h.home_le hp hj hq
  exact ⟨j, hj, by omega⟩

theorem remainder_lt (hp : d p = some k) (hp' : d p' = some k') (hhome : p - k = p' - k')
    (hlt : p < p') : (T p).remainder < (T p').remainder := by
  obtain ⟨m, rfl⟩ : ∃ m : ℕ, p' = p + (m + 1) := ⟨(p' - p - 1).toNat, by omega⟩
  induction m generalizing k' with
  | zero =>
    obtain ⟨i, rfl⟩ : ∃ i, k' = i + 1 := ⟨k' - 1, by omega⟩
    obtain ⟨j, hj, hor⟩ := (h.fits _).chained _ hp'
    have heq : p + ((0 : ℕ) + 1) - 1 = p := by simp
    rw [heq, hp] at hj
    cases hj
    rcases hor with hlt' | ⟨-, hrem⟩
    · push_cast at hhome
      omega
    · rwa [heq] at hrem
  | succ m ih =>
    obtain ⟨i, rfl⟩ : ∃ i, k' = i + 1 := ⟨k' - 1, by omega⟩
    obtain ⟨j, hj, hor⟩ := (h.fits _).chained _ hp'
    have heq : p + ((m + 1 : ℕ) + 1) - 1 = p + (m + 1) := by push_cast; omega
    rw [heq] at hj hor
    obtain ⟨j', hj', hhome'⟩ := h.between hp hp' hhome (q := p + (m + 1)) (by omega) (by push_cast; omega)
    rw [hj] at hj'
    cases hj'
    have hrem := ih hj (by omega) (by omega)
    rcases hor with hlt' | ⟨-, hrem'⟩
    · push_cast at hhome hhome'
      omega
    · exact hrem.trans hrem'

/-! ### Empty slots -/

theorem isEmpty_eq_false (hp : d p = some k) : (T p).isEmpty = false := by
  rcases k with - | k
  · have hocc : (T p).occupied = true := (h.occupied p).mpr (.inl ⟨0, by simpa using hp⟩)
    simp [Slot.isEmpty, hocc]
  · have hshift : (T p).shifted = true := (h.fits p).shifted.mpr ⟨k, hp⟩
    simp [Slot.isEmpty, hshift]

theorem continuation_of_none (hp : d p = none) : (T p).continuation = false := by
  rw [← Bool.not_eq_true, (h.fits p).continuation]
  rintro ⟨k, hk, -⟩
  rw [hp] at hk
  cases hk

theorem shifted_of_none (hp : d p = none) : (T p).shifted = false := by
  rw [← Bool.not_eq_true, (h.fits p).shifted]
  rintro ⟨k, hk⟩
  rw [hp] at hk
  cases hk

theorem occupied_of_none (hp : d p = none) (hflag : ¬ flagged p) : (T p).occupied = false := by
  rw [← Bool.not_eq_true, h.occupied]
  rintro (⟨k, hk⟩ | hf)
  · obtain ⟨j, hj, -⟩ := h.filled hk (show p + k - k ≤ p by omega) (by omega)
    rw [hp] at hj
    cases hj
  · exact hflag hf

theorem isEmpty_iff (hflag : ¬ flagged p) : (T p).isEmpty = true ↔ d p = none := by
  constructor
  · intro hempty
    rcases hd : d p with - | k
    · rfl
    · rw [h.isEmpty_eq_false hd] at hempty
      cases hempty
  · intro hd
    simp [Slot.isEmpty, h.occupied_of_none hd hflag, h.continuation_of_none hd,
      h.shifted_of_none hd]

theorem exists_hole (hn : 0 < n) (he : d e = none) (a : ℤ) :
    ∃ p, a ≤ p ∧ p < a + n ∧ d p = none := by
  obtain ⟨p, m, hp, hp', rfl⟩ := exists_round hn a e
  rw [periodic_mul h.places] at he
  exact ⟨p, hp, hp', he⟩

end Layout

/-! ### Runs -/

/-- Where the run of `b` starts or would start: behind what has an earlier home, and in front of
what has a later one. -/
structure RunStart (d : ℤ → Option ℕ) (b s : ℤ) : Prop where
  le : b ≤ s
  before : ∀ p, b ≤ p → p < s → ∃ k : ℕ, d p = some k ∧ p - k < b
  after : ∀ k : ℕ, d s = some k → b ≤ s - k

theorem hasRun_of_home (hp : d p = some k) (hhome : p - k = x) : HasRun d x := by
  refine ⟨k, ?_⟩
  rw [← hhome, Int.sub_add_cancel]
  exact hp

variable {b : ℤ}

theorem RunStart.self (hb : d b = some 0) : RunStart d b b := by
  refine ⟨le_refl b, fun p hp hlt => absurd hp hlt.not_ge, fun k hk => ?_⟩
  rw [hb] at hk
  cases hk
  simp

variable {s : ℤ}

theorem RunStart.le_of_hole (hs : RunStart d b s) (hbe : b ≤ e) (he : d e = none) : s ≤ e := by
  by_contra hlt
  obtain ⟨k, hk, -⟩ := hs.before e hbe (by omega)
  rw [he] at hk
  cases hk

theorem RunStart.home_ne_before (hs : RunStart d b s) (hk : d (s - 1) = some k) :
    s - 1 - k ≠ b := by
  intro hhome
  obtain ⟨j, hj, hlt⟩ := hs.before (s - 1) (by omega) (by omega)
  rw [hk] at hj
  cases hj
  omega

namespace Layout

variable (h : Layout n T d flagged)

include h

theorem continuation_of_start (hs : RunStart d b s) : (T s).continuation = false := by
  rw [← Bool.not_eq_true, (h.fits s).continuation]
  rintro ⟨k, hk, hk'⟩
  have hle := hs.after _ hk
  have hlt : s - 1 - k < b := by
    obtain ⟨j, hj, hlt⟩ := hs.before (s - 1) (by push_cast at hle; omega) (by omega)
    rw [hk'] at hj
    cases hj
    exact hlt
  push_cast at hle
  omega

theorem head_of_start (hs : RunStart d b s) (hrun : HasRun d b) :
    ∃ k : ℕ, d s = some k ∧ s - k = b := by
  obtain ⟨k, hk⟩ := hrun
  have hle : s ≤ b + k := by
    by_contra hlt
    obtain ⟨j, hj, hhome⟩ := hs.before (b + k) (by omega) (by omega)
    rw [hk] at hj
    cases hj
    omega
  obtain ⟨j, hj, hhome⟩ := h.filled hk (show b + k - k ≤ s by have := hs.le; omega) hle
  have hge := hs.after j hj
  exact ⟨j, hj, by omega⟩

variable {s' : ℤ}

theorem run_of_continuations (hk : d s = some k)
    (hcont : ∀ p, s < p → p < s' → (T p).continuation = true) (hp : s ≤ p) (hp' : p < s') :
    ∃ j : ℕ, d p = some j ∧ p - j = s - k := by
  obtain ⟨m, rfl⟩ : ∃ m : ℕ, p = s + m := ⟨(p - s).toNat, by omega⟩
  induction m with
  | zero => exact ⟨k, by simpa using hk, by omega⟩
  | succ m ih =>
    obtain ⟨j, hj, hhome⟩ := ih (by omega) (by omega)
    obtain ⟨i, hi, hi'⟩ := (h.fits _).continuation.mp (hcont _ (by omega) hp')
    have heq : s + (m + 1 : ℕ) - 1 = s + m := by push_cast; omega
    rw [heq, hj] at hi'
    cases hi'
    exact ⟨j + 1, hi, by push_cast; omega⟩

theorem behind_of_not_continuation (hk : d s = some k) (hlt : s < s')
    (hcont : ∀ p, s < p → p < s' → (T p).continuation = true) (hend : (T s').continuation = false)
    (j : ℕ) (hj : d s' = some j) : s - k < s' - j := by
  obtain ⟨i, hi, hhome⟩ := h.run_of_continuations hk hcont (p := s' - 1) (by omega) (by omega)
  have hle := h.home_le hi hj (by omega)
  by_contra hge
  have heq : j = i + 1 := by omega
  have hc := (h.fits s').continuation.mpr ⟨i, heq ▸ hj, hi⟩
  rw [hend] at hc
  cases hc

theorem runStart_next {b' : ℤ} (hs : RunStart d b s) (hk : d s = some k) (hhome : s - k = b)
    (hb : b < b') (hlt : s < s') (hcont : ∀ p, s < p → p < s' → (T p).continuation = true)
    (hend : (T s').continuation = false) (hgap : ∀ x, b < x → x < b' → ¬ HasRun d x)
    (hfull : ∀ y, b ≤ y → y < b' → ∃ j, d y = some j) : RunStart d b' s' := by
  have hbehind := h.behind_of_not_continuation hk hlt hcont hend
  -- what is behind the run has a home, and there is none before `b'`
  have hafter : ∀ j : ℕ, d s' = some j → b' ≤ s' - j := by
    intro j hj
    by_contra hlt'
    have := hbehind j hj
    exact hgap (s' - j) (by omega) (by omega) (hasRun_of_home hj rfl)
  refine ⟨?_, fun p hp hp' => ?_, hafter⟩
  · by_contra hlt'
    obtain ⟨j, hj⟩ := hfull s' (by have := hs.le; omega) (by omega)
    have := hafter j hj
    omega
  · rcases lt_or_ge p s with hps | hps
    · obtain ⟨j, hj, hj'⟩ := hs.before p (by omega) hps
      exact ⟨j, hj, by omega⟩
    · obtain ⟨j, hj, hj'⟩ := h.run_of_continuations hk hcont hps hp'
      exact ⟨j, hj, by omega⟩

end Layout

/-! ### Where an element goes -/

/-- The place of an element with home `x` and remainder `r`. -/
structure Place (T : ℤ → Slot ρ) (d : ℤ → Option ℕ) (x : ℤ) (r : ρ) (s : ℤ) : Prop where
  le : x ≤ s
  before : ∀ p, x ≤ p → p < s → ∃ k : ℕ, d p = some k ∧
    (p - k < x ∨ p - k = x ∧ (T p).remainder < r)
  after : ∀ k : ℕ, d s = some k → x < s - k ∨ s - k = x ∧ r < (T s).remainder

theorem RunStart.place (hs : RunStart d x s) (hrun : ¬ HasRun d x) (r : ρ) : Place T d x r s := by
  refine ⟨hs.le, fun p hp hlt => ?_, fun k hk => .inl ?_⟩
  · obtain ⟨k, hk, hhome⟩ := hs.before p hp hlt
    exact ⟨k, hk, .inl hhome⟩
  · have hle := hs.after k hk
    by_contra hge
    exact hrun (hasRun_of_home hk (by omega))

theorem Layout.place_in_run (h : Layout n T d flagged) {s₀ : ℤ} {r : ρ} (hs : RunStart d x s₀)
    (hrun : HasRun d x) (hle : s₀ ≤ s)
    (hbefore : ∀ p, s₀ ≤ p → p < s → ∃ k : ℕ, d p = some k ∧ p - k = x ∧ (T p).remainder < r)
    (hafter : ∀ k : ℕ, d s = some k → s - k = x → r < (T s).remainder) : Place T d x r s := by
  refine ⟨hs.le.trans hle, fun p hp hlt => ?_, fun k hk => ?_⟩
  · rcases lt_or_ge p s₀ with hps | hps
    · obtain ⟨k, hk, hhome⟩ := hs.before p hp hps
      exact ⟨k, hk, .inl hhome⟩
    · obtain ⟨k, hk, hhome, hrem⟩ := hbefore p hps hlt
      exact ⟨k, hk, .inr ⟨hhome, hrem⟩⟩
  · obtain ⟨k₀, hk₀, hhome₀⟩ := h.head_of_start hs hrun
    have hge := h.home_le hk₀ hk hle
    rcases eq_or_ne (s - k) x with heq | hne
    · exact .inr ⟨heq, hafter k hk heq⟩
    · exact .inl (by omega)

theorem Layout.flag (h : Layout n T d fun _ => False) (hslots : Function.Periodic T' n)
    (hkept : ∀ p, (T' p).continuation = (T p).continuation ∧ (T' p).shifted = (T p).shifted ∧
      (T' p).remainder = (T p).remainder)
    (hocc : ∀ y, (T' y).occupied = true ↔ (T y).occupied = true ∨ ∃ m : ℤ, y = x + m * n) :
    Layout n T' d fun y => ∃ m : ℤ, y = x + m * n := by
  refine ⟨hslots, h.places, fun p => ?_, fun y => ?_⟩
  · have hfits := h.fits p
    constructor
    · rw [(hkept p).2.2, (hkept (p - 1)).2.2]
      exact hfits.chained
    · rw [(hkept p).1]
      exact hfits.continuation
    · rw [(hkept p).2.1]
      exact hfits.shifted
  · rw [hocc, h.occupied, or_false]

/-! ### Insertion -/

/-- The places after an element of home `x` has been put at `s`, up to the empty slot `e`, in the
round that starts at `x`. -/
def insertRound (x s e : ℤ) (d : ℤ → Option ℕ) (q : ℤ) : Option ℕ :=
  if q < s then d q
  else if q = s then some (s - x).toNat
  else if q ≤ e then (d (q - 1)).map (· + 1)
  else d q

section Round

variable {x s e q : ℤ}

theorem insertRound_before (hq : q < s) : insertRound x s e d q = d q := by
  rw [insertRound, if_pos hq]

theorem insertRound_new : insertRound x s e d s = some (s - x).toNat := by
  rw [insertRound, if_neg (lt_irrefl s), if_pos rfl]

theorem insertRound_moved (hq : s < q) (hq' : q ≤ e) :
    insertRound x s e d q = (d (q - 1)).map (· + 1) := by
  rw [insertRound, if_neg (by omega), if_neg (by omega), if_pos hq']

theorem insertRound_behind (hle : s ≤ e) (hq : e < q) : insertRound x s e d q = d q := by
  rw [insertRound, if_neg (by omega), if_neg (by omega), if_neg (by omega)]

end Round

/-- The same in every round. -/
def insertAt (n x s e : ℤ) (d : ℤ → Option ℕ) (p : ℤ) : Option ℕ :=
  insertRound x s e d (x + (p - x) % n)

/-- In `T'` an element of home `x` and remainder `r` stands at `s`, and what stood there and
behind it, up to the empty slot `e`, has moved by one slot.  The bits `occupied` stay with the
slots, and the old head of a run becomes a continuation when the new element goes before it. -/
structure Inserted (n : ℤ) (T T' : ℤ → Slot ρ) (d : ℤ → Option ℕ) (x : ℤ) (r : ρ) (s e : ℤ) :
    Prop where
  place : Place T d x r s
  le : s ≤ e
  lt : e + 1 < x + n
  full : ∀ p, s ≤ p → p < e → ∃ k, d p = some k
  hole : d e = none
  slots : Function.Periodic T' n
  occupied : ∀ p, (T' p).occupied = (T p).occupied
  kept : ∀ p, x ≤ p → p < x + n → p < s ∨ e < p → T' p = T p
  new_continuation : (T' s).continuation = true ↔ ∃ k : ℕ, d (s - 1) = some k ∧ s - 1 - k = x
  new_shifted : (T' s).shifted = true ↔ x < s
  new_remainder : (T' s).remainder = r
  next_continuation : s < e →
    ((T' (s + 1)).continuation = true ↔ ∃ k : ℕ, d s = some k ∧ s - k = x)
  moved_continuation : ∀ p, s + 1 < p → p ≤ e → (T' p).continuation = (T (p - 1)).continuation
  moved_shifted : ∀ p, s < p → p ≤ e → (T' p).shifted = true
  moved_remainder : ∀ p, s < p → p ≤ e → (T' p).remainder = (T (p - 1)).remainder

theorem insertAt_periodic : Function.Periodic (insertAt n x s e d) n := by
  intro p
  have heq : p + n - x = p - x + n := by omega
  rw [insertAt, insertAt, heq, Int.add_emod_right]

section Inserted

variable {x s e : ℤ} {r : ρ} (hl : Layout n T d flagged) (hi : Inserted n T T' d x r s e)

include hi

theorem Inserted.pos : 0 < n := by
  have h₁ := hi.place.le
  have h₂ := hi.le
  have h₃ := hi.lt
  omega

include hl

theorem Inserted.insertAt_eq (hp : x - 1 ≤ p) (hp' : p < x + n) :
    insertAt n x s e d p = insertRound x s e d p := by
  have hn := hi.pos
  have hs := hi.place.le
  have hle := hi.le
  have hlt := hi.lt
  rcases lt_or_ge p x with hpx | hpx
  · -- the slot before is the last one of the round
    obtain rfl : p = x - 1 := by omega
    have hmod : (x - 1 - x) % n = n - 1 := by
      have heq : x - 1 - x = (n - 1) + (-1) * n := by omega
      rw [heq, Int.add_mul_emod_self_right, Int.emod_eq_of_lt (by omega) (by omega)]
    have hlast : x + (n - 1) = x - 1 + n := by omega
    rw [insertAt, hmod, hlast, insertRound, insertRound, if_neg (by omega), if_neg (by omega),
      if_neg (by omega), if_pos (by omega), hl.places]
  · rw [insertAt, Int.emod_eq_of_lt (by omega) (by omega)]
    congr 1
    omega

theorem Inserted.kept_before : T' (x - 1) = T (x - 1) := by
  have hlt := hi.lt
  have hle := hi.le
  have hs := hi.place.le
  have hlast := hi.kept (x - 1 + n) (by omega) (by omega) (.inr (by omega))
  rwa [hi.slots, hl.slots] at hlast

theorem Inserted.fits_before (hq : x ≤ q) (hqs : q < s) : Fits T' (insertRound x s e d) q := by
  have hle := hi.le
  have hlt := hi.lt
  have hT : T' q = T q := hi.kept q hq (by omega) (.inl hqs)
  have hT' : T' (q - 1) = T (q - 1) := by
    rcases eq_or_lt_of_le hq with rfl | hlt'
    · exact hi.kept_before hl
    · exact hi.kept (q - 1) (by omega) (by omega) (.inl (by omega))
  have hfits := hl.fits q
  constructor
  · rw [insertRound_before hqs, insertRound_before (by omega), hT, hT']
    exact hfits.chained
  · rw [insertRound_before hqs, insertRound_before (by omega), hT]
    exact hfits.continuation
  · rw [insertRound_before hqs, hT]
    exact hfits.shifted

omit hl in
theorem Inserted.fits_new : Fits T' (insertRound x s e d) s := by
  have hle := hi.place.le
  have hse := hi.le
  have hlt := hi.lt
  constructor
  · intro k hk
    rw [insertRound_new] at hk
    have hkx : s - x = k + 1 := by
      have := some_inj.mp hk
      omega
    obtain ⟨j, hj, hor⟩ := hi.place.before (s - 1) (by omega) (by omega)
    refine ⟨j, ?_, ?_⟩
    · rw [insertRound_before (by omega)]
      exact hj
    · rw [hi.new_remainder, hi.kept (s - 1) (by omega) (by omega) (.inl (by omega))]
      rcases hor with hhome | ⟨hhome, hrem⟩
      · exact .inl (by omega)
      · exact .inr ⟨by omega, hrem⟩
  · rw [hi.new_continuation, insertRound_new, insertRound_before (by omega)]
    constructor
    · rintro ⟨k, hk, hhome⟩
      refine ⟨k, ?_, hk⟩
      rw [some_inj]
      omega
    · rintro ⟨k, hk, hk'⟩
      have := some_inj.mp hk
      exact ⟨k, hk', by omega⟩
  · rw [hi.new_shifted, insertRound_new]
    constructor
    · intro hxs
      exact ⟨(s - x).toNat - 1, by rw [some_inj]; omega⟩
    · rintro ⟨k, hk⟩
      have := some_inj.mp hk
      omega

omit hl in
theorem Inserted.fits_next (hse : s < e) : Fits T' (insertRound x s e d) (s + 1) := by
  have hle := hi.place.le
  obtain ⟨k, hk⟩ := hi.full s (le_refl s) hse
  have hround : insertRound x s e d (s + 1) = some (k + 1) := by
    rw [insertRound_moved (by omega) (by omega), Int.add_sub_cancel, hk]
    rfl
  have hafter := hi.place.after k hk
  constructor
  · intro k' hk'
    rw [hround] at hk'
    cases hk'
    refine ⟨(s - x).toNat, ?_, ?_⟩
    · rw [Int.add_sub_cancel]
      exact insertRound_new
    · rw [Int.add_sub_cancel, hi.new_remainder, hi.moved_remainder _ (by omega) (by omega),
        Int.add_sub_cancel]
      rcases hafter with hhome | ⟨hhome, hrem⟩
      · exact .inl (by omega)
      · exact .inr ⟨by omega, hrem⟩
  · rw [hi.next_continuation hse, Int.add_sub_cancel, hround, insertRound_new]
    constructor
    · rintro ⟨k', hk', hhome⟩
      rw [hk] at hk'
      cases hk'
      refine ⟨k, rfl, ?_⟩
      rw [some_inj]
      omega
    · rintro ⟨k', hk', hround'⟩
      cases hk'
      have := some_inj.mp hround'
      exact ⟨k, hk, by omega⟩
  · rw [hi.moved_shifted _ (by omega) (by omega), hround]
    exact ⟨fun _ => ⟨k, rfl⟩, fun _ => rfl⟩

theorem Inserted.fits_moved (hq : s + 1 < q) (hqe : q ≤ e) : Fits T' (insertRound x s e d) q := by
  obtain ⟨k, hk⟩ := hi.full (q - 1) (by omega) (by omega)
  obtain ⟨j, hj⟩ := hi.full (q - 1 - 1) (by omega) (by omega)
  have hround : insertRound x s e d q = some (k + 1) := by
    rw [insertRound_moved (by omega) hqe, hk]
    rfl
  have hround' : insertRound x s e d (q - 1) = some (j + 1) := by
    rw [insertRound_moved (by omega) (by omega), hj]
    rfl
  have hfits := hl.fits (q - 1)
  constructor
  · intro k' hk'
    rw [hround] at hk'
    cases hk'
    refine ⟨j + 1, hround', ?_⟩
    rw [hi.moved_remainder q (by omega) hqe, hi.moved_remainder (q - 1) (by omega) (by omega)]
    rcases k with - | k
    · exact .inl (by omega)
    · obtain ⟨j', hj', hor⟩ := hfits.chained k hk
      rw [hj] at hj'
      cases hj'
      rcases hor with hkj | ⟨rfl, hrem⟩
      · exact .inl (by omega)
      · exact .inr ⟨rfl, hrem⟩
  · rw [hi.moved_continuation q hq hqe, hfits.continuation, hround, hround', hk, hj]
    constructor
    · rintro ⟨i, hi₁, hi₂⟩
      cases hi₁
      cases hi₂
      exact ⟨_, rfl, rfl⟩
    · rintro ⟨i, hi₁, hi₂⟩
      cases hi₁
      cases hi₂
      exact ⟨_, rfl, rfl⟩
  · rw [hi.moved_shifted q (by omega) hqe, hround]
    exact ⟨fun _ => ⟨k, rfl⟩, fun _ => rfl⟩

theorem Inserted.fits_behind (hq : e < q) (hqn : q < x + n) : Fits T' (insertRound x s e d) q := by
  have hse := hi.le
  have hxs := hi.place.le
  have hT : T' q = T q := hi.kept q (by omega) hqn (.inr hq)
  have hfits := hl.fits q
  rcases eq_or_lt_of_le (show e + 1 ≤ q from hq) with rfl | hlt
  · have hhome : ∀ k, d (e + 1) ≠ some (k + 1) := by
      intro k hk
      obtain ⟨j, hj, -⟩ := hfits.chained k hk
      rw [Int.add_sub_cancel, hi.hole] at hj
      cases hj
    constructor
    · intro k hk
      rw [insertRound_behind hse hq] at hk
      exact absurd hk (hhome k)
    · rw [hT, hfits.continuation, insertRound_behind hse hq]
      constructor
      · rintro ⟨k, hk, -⟩
        exact absurd hk (hhome k)
      · rintro ⟨k, hk, -⟩
        exact absurd hk (hhome k)
    · rw [hT, hfits.shifted, insertRound_behind hse hq]
  · have hT' : T' (q - 1) = T (q - 1) := hi.kept (q - 1) (by omega) (by omega) (.inr (by omega))
    constructor
    · rw [insertRound_behind hse hq, insertRound_behind hse (by omega), hT, hT']
      exact hfits.chained
    · rw [insertRound_behind hse hq, insertRound_behind hse (by omega), hT]
      exact hfits.continuation
    · rw [insertRound_behind hse hq, hT]
      exact hfits.shifted

theorem Inserted.fits_round (hq : x ≤ q) (hqn : q < x + n) : Fits T' (insertRound x s e d) q := by
  rcases lt_trichotomy q s with hlt | rfl | hgt
  · exact hi.fits_before hl hq hlt
  · exact hi.fits_new
  · rcases lt_or_ge e q with hqe | hqe
    · exact hi.fits_behind hl hqe hqn
    · rcases eq_or_lt_of_le (show s + 1 ≤ q from hgt) with rfl | hlt
      · exact hi.fits_next (by omega)
      · exact hi.fits_moved hl hlt hqe

theorem Inserted.fits (p : ℤ) : Fits T' (insertAt n x s e d) p := by
  obtain ⟨q, m, hq, hqn, rfl⟩ := exists_round hi.pos x p
  have hround := hi.fits_round hl hq hqn
  have hprev : q + m * n - 1 = q - 1 + m * n := by omega
  have hd : insertAt n x s e d (q + m * n) = insertRound x s e d q := by
    rw [periodic_mul insertAt_periodic, hi.insertAt_eq hl (by omega) hqn]
  have hd' : insertAt n x s e d (q + m * n - 1) = insertRound x s e d (q - 1) := by
    rw [hprev, periodic_mul insertAt_periodic, hi.insertAt_eq hl (by omega) (by omega)]
  have hT : T' (q + m * n) = T' q := periodic_mul hi.slots m q
  have hT' : T' (q + m * n - 1) = T' (q - 1) := by
    rw [hprev]
    exact periodic_mul hi.slots m (q - 1)
  constructor
  · rw [hd, hd', hT, hT']
    exact hround.chained
  · rw [hd, hd', hT]
    exact hround.continuation
  · rw [hd, hT]
    exact hround.shifted

theorem Inserted.stored {r' : ρ} (hy : Stored T d y r') : Stored T' (insertAt n x s e d) y r' := by
  have hse := hi.le
  have hlt := hi.lt
  have hxs := hi.place.le
  obtain ⟨k, hk, hrem⟩ := hy
  obtain ⟨q, m, hq, hqn, heq⟩ := exists_round hi.pos x (y + k)
  rw [heq, periodic_mul hl.places] at hk
  rw [heq, periodic_mul hl.slots] at hrem
  by_cases hkept : q < s ∨ e < q
  · refine ⟨k, ?_, ?_⟩
    · rw [heq, periodic_mul insertAt_periodic, hi.insertAt_eq hl (by omega) hqn]
      rcases hkept with hqs | hqe
      · rw [insertRound_before hqs, hk]
      · rw [insertRound_behind hse hqe, hk]
    · rw [heq, periodic_mul hi.slots, hi.kept q hq hqn hkept, hrem]
  · -- it has moved by one slot
    have hqe : q ≠ e := by
      rintro rfl
      rw [hi.hole] at hk
      cases hk
    have heq' : y + (k + 1 : ℕ) = q + 1 + m * n := by
      push_cast
      omega
    refine ⟨k + 1, ?_, ?_⟩
    · rw [heq', periodic_mul insertAt_periodic, hi.insertAt_eq hl (by omega) (by omega),
        insertRound_moved (by omega) (by omega), Int.add_sub_cancel, hk]
      rfl
    · rw [heq', periodic_mul hi.slots, hi.moved_remainder _ (by omega) (by omega),
        Int.add_sub_cancel, hrem]

theorem Inserted.stored_new : Stored T' (insertAt n x s e d) x r := by
  have hxs := hi.place.le
  have hse := hi.le
  have hlt := hi.lt
  have heq : x + (s - x).toNat = s := by omega
  refine ⟨(s - x).toNat, ?_, ?_⟩
  · rw [heq, hi.insertAt_eq hl (by omega) (by omega), insertRound_new]
  · rw [heq, hi.new_remainder]

theorem Inserted.hasRun (hy : HasRun (insertAt n x s e d) y) :
    HasRun d y ∨ ∃ m : ℤ, y = x + m * n := by
  have hse := hi.le
  have hxs := hi.place.le
  obtain ⟨k, hk⟩ := hy
  obtain ⟨q, m, hq, hqn, heq⟩ := exists_round hi.pos x (y + k)
  rw [heq, periodic_mul insertAt_periodic, hi.insertAt_eq hl (by omega) hqn] at hk
  have hold : d q = some k → HasRun d y := by
    intro hd
    refine ⟨k, ?_⟩
    rw [heq, periodic_mul hl.places, hd]
  rcases lt_trichotomy q s with hqs | rfl | hqs
  · rw [insertRound_before hqs] at hk
    exact .inl (hold hk)
  · rw [insertRound_new] at hk
    have := some_inj.mp hk
    exact .inr ⟨m, by omega⟩
  · rcases lt_or_ge e q with hqe | hqe
    · rw [insertRound_behind hse hqe] at hk
      exact .inl (hold hk)
    · rw [insertRound_moved hqs hqe] at hk
      obtain ⟨j, hj, rfl⟩ := map_eq_some_iff.mp hk
      refine .inl ⟨j, ?_⟩
      have heq' : y + j = q - 1 + m * n := by
        push_cast at heq
        omega
      rw [heq', periodic_mul hl.places, hj]

/-- **Insertion** keeps the layout. -/
theorem Layout.insert (hflag : ∀ y, flagged y → ∃ m : ℤ, y = x + m * n)
    (hocc : (T x).occupied = true) : Layout n T' (insertAt n x s e d) fun _ => False := by
  refine ⟨hi.slots, insertAt_periodic, hi.fits hl, fun y => ?_⟩
  rw [hi.occupied, or_false]
  constructor
  · intro hy
    rcases (hl.occupied y).mp hy with ⟨k, hk⟩ | hf
    · exact (hi.stored hl ⟨k, hk, rfl⟩).hasRun
    · obtain ⟨m, rfl⟩ := hflag y hf
      obtain ⟨k, hk⟩ := (hi.stored_new hl).hasRun
      refine ⟨k, ?_⟩
      have heq : x + m * n + k = x + k + m * n := by omega
      rw [heq, periodic_mul insertAt_periodic, hk]
  · intro hy
    rcases hi.hasRun hl hy with hrun | ⟨m, rfl⟩
    · exact (hl.occupied y).mpr (.inl hrun)
    · rw [periodic_mul hl.slots]
      exact hocc

end Inserted

/-! ### How full the table is -/

/-- The number of slots with an element. -/
def used (N : ℕ) (d : ℤ → Option ℕ) : ℕ := ((Finset.range N).filter fun i : ℕ => (d i).isSome).card

section Used

variable {N : ℕ}

theorem exists_hole_of_used (hused : used N d < N) : ∃ e, d e = none := by
  by_contra hfull
  have hall : ∀ i ∈ Finset.range N, (d i).isSome = true :=
    fun i _ => isSome_iff_ne_none.mpr fun hi => hfull ⟨i, hi⟩
  rw [used, Finset.filter_true_of_mem hall, Finset.card_range] at hused
  exact lt_irrefl N hused

theorem exists_first_hole (hplaces : Function.Periodic d N) (hused : used N d + 1 < N) (x : ℤ) :
    ∃ e, x ≤ e ∧ e + 1 < x + N ∧ d e = none ∧ ∀ p, x ≤ p → p < e → ∃ k, d p = some k := by
  -- two empty slots in the table
  have hcard : 1 < ((Finset.range N).filter fun i : ℕ => d i = none).card := by
    have hsum := Finset.card_filter_add_card_filter_not (s := Finset.range N)
      (p := fun i : ℕ => (d i).isSome = true)
    have hnot : ((Finset.range N).filter fun i : ℕ => ¬ (d i).isSome = true) =
        (Finset.range N).filter fun i : ℕ => d i = none := by
      apply Finset.filter_congr
      intro i _
      simp
    rw [hnot, Finset.card_range] at hsum
    rw [used] at hused
    omega
  obtain ⟨a, ha, b, hb, hab⟩ := Finset.one_lt_card.mp hcard
  obtain ⟨haN, ha⟩ := Finset.mem_filter.mp ha
  obtain ⟨hbN, hb⟩ := Finset.mem_filter.mp hb
  rw [Finset.mem_range] at haN hbN
  have hN : (0 : ℤ) < N := by omega
  -- and in the round from `x` on
  obtain ⟨a', m, hxa, hax, ha'⟩ := exists_round hN x a
  obtain ⟨b', m', hxb, hbx, hb'⟩ := exists_round hN x b
  rw [ha', periodic_mul hplaces] at ha
  rw [hb', periodic_mul hplaces] at hb
  have hne : a' ≠ b' := by
    rintro rfl
    have hmod : (a : ℤ) % N = (b : ℤ) % N := by
      rw [ha', hb', Int.add_mul_emod_self_right, Int.add_mul_emod_self_right]
    rw [Int.emod_eq_of_lt (by omega) (by omega), Int.emod_eq_of_lt (by omega) (by omega)] at hmod
    exact hab (by exact_mod_cast hmod)
  -- the first of the two or one before it
  obtain ⟨c, hxc, hcx, hc⟩ : ∃ c, x ≤ c ∧ c + 1 < x + N ∧ d c = none := by
    rcases lt_or_gt_of_ne hne with hlt | hgt
    · exact ⟨a', hxa, by omega, ha⟩
    · exact ⟨b', hxb, by omega, hb⟩
  obtain ⟨i, rfl⟩ : ∃ i : ℕ, c = x + i := ⟨(c - x).toNat, by omega⟩
  have hex : ∃ i : ℕ, d (x + i) = none := ⟨i, hc⟩
  have hmin : Nat.find hex ≤ i := Nat.find_min' hex hc
  refine ⟨x + Nat.find hex, by omega, by omega, Nat.find_spec hex, fun p hp hlt => ?_⟩
  obtain ⟨j, rfl⟩ : ∃ j : ℕ, p = x + j := ⟨(p - x).toNat, by omega⟩
  exact ne_none_iff_exists'.mp (Nat.find_min hex (by omega))

variable {x s e : ℤ} {r : ρ}

theorem Inserted.isSome_iff (hl : Layout n T d flagged) (hi : Inserted n T T' d x r s e) (p : ℤ) :
    (insertAt n x s e d p).isSome = true ↔ (d p).isSome = true ∨ ∃ m : ℤ, p = e + m * n := by
  have hse := hi.le
  have hxs := hi.place.le
  have hlt := hi.lt
  have hn := hi.pos
  obtain ⟨q, m, hq, hqn, rfl⟩ := exists_round hn x p
  rw [periodic_mul insertAt_periodic, hi.insertAt_eq hl (by omega) hqn, periodic_mul hl.places]
  have hiff : (∃ m' : ℤ, q + m * n = e + m' * n) ↔ q = e := by
    constructor
    · rintro ⟨m', heq⟩
      have hmod : (q - x) % n = (e - x) % n := by
        have h₁ : q - x = e - x + (m' - m) * n := by
          rw [Int.sub_mul]
          omega
        rw [h₁, Int.add_mul_emod_self_right]
      rw [Int.emod_eq_of_lt (by omega) (by omega), Int.emod_eq_of_lt (by omega) (by omega)] at hmod
      omega
    · rintro rfl
      exact ⟨m, rfl⟩
  rw [hiff]
  rcases lt_trichotomy q s with hqs | rfl | hqs
  · rw [insertRound_before hqs]
    exact ⟨.inl, fun h => h.resolve_right (by omega)⟩
  · rw [insertRound_new]
    refine ⟨fun _ => ?_, fun _ => rfl⟩
    rcases eq_or_lt_of_le hse with rfl | hqe
    · exact .inr rfl
    · obtain ⟨k, hk⟩ := hi.full q le_rfl hqe
      exact .inl (by rw [hk]; rfl)
  · rcases lt_or_ge e q with hqe | hqe
    · rw [insertRound_behind hse hqe]
      exact ⟨.inl, fun h => h.resolve_right (by omega)⟩
    · obtain ⟨k, hk⟩ := hi.full (q - 1) (by omega) (by omega)
      rw [insertRound_moved hqs hqe, hk]
      refine ⟨fun _ => ?_, fun _ => rfl⟩
      rcases eq_or_lt_of_le hqe with rfl | hqe'
      · exact .inr rfl
      · obtain ⟨k', hk'⟩ := hi.full q (by omega) hqe'
        exact .inl (by rw [hk']; rfl)

theorem Inserted.used_eq (hn : n = N) (hl : Layout n T d flagged)
    (hi : Inserted n T T' d x r s e) : used N (insertAt n x s e d) = used N d + 1 := by
  have hpos := hi.pos
  have h₀ := Int.emod_nonneg e hpos.ne'
  have h₁ := Int.emod_lt_of_pos e hpos
  have heq : ((e % n).toNat : ℤ) = e % n := Int.toNat_of_nonneg h₀
  have hround : e % n + e / n * n = e := by
    rw [Int.mul_comm]
    exact Int.emod_add_mul_ediv e n
  have hinsert : ((Finset.range N).filter fun i : ℕ => (insertAt n x s e d i).isSome = true) =
      insert (e % n).toNat ((Finset.range N).filter fun i : ℕ => (d i).isSome = true) := by
    ext i
    simp only [Finset.mem_filter, Finset.mem_range, Finset.mem_insert, hi.isSome_iff hl]
    constructor
    · rintro ⟨hi', hsome | ⟨m, hm⟩⟩
      · exact .inr ⟨hi', hsome⟩
      · left
        have hmod : (i : ℤ) % n = e % n := by rw [hm, Int.add_mul_emod_self_right]
        rw [Int.emod_eq_of_lt (by omega) (by omega)] at hmod
        omega
    · rintro (rfl | ⟨hi', hsome⟩)
      · refine ⟨by omega, .inr ⟨-(e / n), ?_⟩⟩
        rw [heq, Int.neg_mul]
        omega
      · exact ⟨hi', .inl hsome⟩
  rw [used, used, hinsert, Finset.card_insert_of_notMem]
  rw [Finset.mem_filter, heq]
  rintro ⟨-, hsome⟩
  have hper := periodic_mul hl.places (e / n) (e % n)
  rw [hround, hi.hole] at hper
  rw [← hper] at hsome
  cases hsome

end Used

end CircularRuns
