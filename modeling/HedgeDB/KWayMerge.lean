/-
HedgeDB/KWayMerge.lean

Merging sorted sources with a heap.

The heap holds one cursor for each source that is not exhausted: the item at
its front, what is left behind it, and the priority of the source.  The cursor
with the smallest front key leaves first and, among equal keys, the one with
the highest priority.  A cursor that still has items goes back into the heap.

`std::push_heap` and `std::pop_heap` are used through what they promise: a pop
removes an element that no other element exceeds (`popHeap_spec`).  The merged
sequence

* is a permutation of all items (`mergeCursors_perm`);
* is sorted by key, if the sources are strictly sorted (`mergeCursors_le`);
* under one key has its priorities descending, if the sources have distinct ones
  (`mergeCursors_sorted`),

so the first item of the merged sequence under a key comes from the source of
highest priority that has the key.
-/
import HedgeDB.KeyedList
import Mathlib.Algebra.Order.Ring.Nat
import Mathlib.Data.List.Perm.Basic

namespace KWayMerge

open List

/-! ### The heap -/

section Heap

variable {α β : Type*} {lt : α → α → Bool}

/-- `pop_heap` followed by `pop_back`: an element no other exceeds under `lt`,
and the remaining ones. -/
def popHeap (lt : α → α → Bool) : List α → Option (α × List α)
  | [] => none
  | a :: l =>
      match popHeap lt l with
      | none => some (a, [])
      | some (m, rest) => if lt a m then some (m, a :: rest) else some (a, m :: rest)

theorem popHeap_eq_none {l : List α} : popHeap lt l = none ↔ l = [] := by
  rcases l with - | ⟨a, l⟩
  · simp [popHeap]
  · rcases e : popHeap lt l with - | ⟨m, rest⟩
    · simp [popHeap, e]
    · simp only [popHeap, e, reduceCtorEq, iff_false]
      split <;> simp

theorem popHeap_spec (hasymm : ∀ a b, lt a b = true → lt b a = false)
    (htrans : ∀ a b c, lt a b = false → lt b c = false → lt a c = false)
    {l : List α} {m : α} {rest : List α} (h : popHeap lt l = some (m, rest)) :
    l.Perm (m :: rest) ∧ ∀ a ∈ rest, lt m a = false := by
  induction l generalizing m rest with
  | nil => simp [popHeap] at h
  | cons a l ih =>
    rw [popHeap] at h
    rcases e : popHeap lt l with - | ⟨m', rest'⟩
    · rw [e] at h
      obtain ⟨rfl, rfl⟩ := Prod.mk.injEq .. ▸ Option.some.inj h
      rw [popHeap_eq_none.mp e]
      exact ⟨Perm.refl _, by simp⟩
    · obtain ⟨hperm, hmax⟩ := ih e
      rw [e] at h
      dsimp only at h
      split at h
      · next hlt =>
        obtain ⟨rfl, rfl⟩ := Prod.mk.injEq .. ▸ Option.some.inj h
        refine ⟨(hperm.cons a).trans (Perm.swap m' a rest'), ?_⟩
        intro b hb
        rcases mem_cons.mp hb with rfl | hb'
        · exact hasymm _ _ hlt
        · exact hmax b hb'
      · next hlt =>
        obtain ⟨rfl, rfl⟩ := Prod.mk.injEq .. ▸ Option.some.inj h
        have hfalse : lt a m' = false := by simpa using hlt
        refine ⟨hperm.cons a, ?_⟩
        intro b hb
        rcases mem_cons.mp hb with rfl | hb'
        · exact hfalse
        · exact htrans a m' b hfalse (hmax b hb')

theorem popHeap_map {lt' : β → β → Bool} (f : β → α)
    (hf : ∀ a b, lt' a b = lt (f a) (f b)) (l : List β) :
    popHeap lt (l.map f) = (popHeap lt' l).map fun p => (f p.1, p.2.map f) := by
  induction l with
  | nil => rfl
  | cons a l ih =>
    rw [map_cons, popHeap, popHeap, ih]
    rcases popHeap lt' l with - | ⟨m, rest⟩
    · rfl
    · simp only [Option.map_some, ← hf]
      split <;> rfl

end Heap

/-! ### Cursors -/

variable {α K : Type*}

/-- A source in the heap: its priority, its front item, the items behind. -/
structure Cursor (α : Type*) where
  prio : ℕ
  head : α
  tail : List α

/-- The items of a cursor with their priority. -/
def Cursor.items (c : Cursor α) : List (α × ℕ) := (c.head :: c.tail).map (·, c.prio)

/-- The cursors after `c` was popped and `rest` left: `c` goes back unless it
was at its last item. -/
def pushBack (c : Cursor α) (rest : List (Cursor α)) : List (Cursor α) :=
  match c.tail with
  | [] => rest
  | a :: l => rest ++ [⟨c.prio, a, l⟩]

variable {rest : List (Cursor α)} {c : Cursor α}

theorem pushBack_tail {P : α → Prop} (h : ∀ d ∈ c :: rest, ∀ a ∈ d.tail, P a) :
    ∀ d ∈ pushBack c rest, ∀ a ∈ d.tail, P a := by
  intro d hd a ha
  rcases e : c.tail with - | ⟨b, l⟩
  · rw [pushBack, e] at hd
    exact h d (mem_cons_of_mem _ hd) a ha
  · rw [pushBack, e] at hd
    rcases mem_append.mp hd with hd' | hd'
    · exact h d (mem_cons_of_mem _ hd') a ha
    · obtain rfl := mem_singleton.mp hd'
      exact h c mem_cons_self a (e ▸ mem_cons_of_mem _ ha)

variable [LinearOrder K] (key : α → K)

/-- The max-heap comparator: the smaller key leaves first, then the higher
priority. -/
def cursorLt (a b : Cursor α) : Bool :=
  if key a.head ≠ key b.head then key b.head < key a.head else a.prio < b.prio

/-- Pop until the heap is empty, at most `fuel` times. -/
def mergeCursors : ℕ → List (Cursor α) → List (α × ℕ)
  | 0, _ => []
  | fuel + 1, cs =>
      match popHeap (cursorLt key) cs with
      | none => []
      | some (c, rest) => (c.head, c.prio) :: mergeCursors fuel (pushBack c rest)

variable {key}

theorem cursorLt_iff {a b : Cursor α} :
    cursorLt key a b = true ↔
      key b.head < key a.head ∨ key a.head = key b.head ∧ a.prio < b.prio := by
  unfold cursorLt
  by_cases h : key a.head = key b.head <;> simp [h]

theorem cursorLt_asymm (a b : Cursor α) (h : cursorLt key a b = true) :
    cursorLt key b a = false := by
  rw [← Bool.not_eq_true, cursorLt_iff]
  rcases cursorLt_iff.mp h with h' | ⟨h', hp⟩
  · rintro (h'' | ⟨h'', -⟩)
    · exact absurd h' h''.not_gt
    · exact absurd h''.symm h'.ne'
  · rintro (h'' | ⟨-, hp'⟩)
    · exact absurd h' h''.ne
    · exact absurd hp hp'.not_gt

theorem cursorLt_false_iff {a b : Cursor α} :
    cursorLt key a b = false ↔
      key a.head < key b.head ∨ key a.head = key b.head ∧ b.prio ≤ a.prio := by
  rw [← Bool.not_eq_true, cursorLt_iff, not_or, not_and, not_lt, not_lt, le_iff_lt_or_eq]
  constructor
  · rintro ⟨h | h, hp⟩
    · exact .inl h
    · exact .inr ⟨h, hp h⟩
  · rintro (h | ⟨h, hp⟩)
    · exact ⟨.inl h, fun e => absurd e h.ne⟩
    · exact ⟨.inr h, fun _ => hp⟩

theorem cursorLt_false_trans (a b c : Cursor α) (hab : cursorLt key a b = false)
    (hbc : cursorLt key b c = false) : cursorLt key a c = false := by
  rw [cursorLt_false_iff] at hab hbc ⊢
  rcases hab with h | ⟨h, hp⟩ <;> rcases hbc with h' | ⟨h', hp'⟩
  · exact .inl (h.trans h')
  · exact .inl (h' ▸ h)
  · exact .inl (h ▸ h')
  · exact .inr ⟨h.trans h', hp'.trans hp⟩

/-! ### The merged sequence -/

/-- The number of items still to come. -/
def size (cs : List (Cursor α)) : ℕ := (cs.flatMap Cursor.items).length

theorem pushBack_items (c : Cursor α) (rest : List (Cursor α)) :
    ((c.head, c.prio) :: (pushBack c rest).flatMap Cursor.items).Perm
      ((c :: rest).flatMap Cursor.items) := by
  obtain ⟨prio, head, tail⟩ := c
  rcases tail with - | ⟨a, l⟩
  · simp [pushBack, Cursor.items]
  · simp only [pushBack, flatMap_append, flatMap_cons, flatMap_nil,
      append_nil, Cursor.items, map_cons, cons_append]
    exact Perm.cons _ perm_append_comm

variable {cs : List (Cursor α)}

theorem pop_perm (h : popHeap (cursorLt key) cs = some (c, rest)) :
    (cs.flatMap Cursor.items).Perm
      ((c.head, c.prio) :: (pushBack c rest).flatMap Cursor.items) :=
  ((popHeap_spec cursorLt_asymm cursorLt_false_trans h).1.flatMap_right _).trans
    (pushBack_items c rest).symm

theorem size_pushBack (h : popHeap (cursorLt key) cs = some (c, rest)) :
    size cs = size (pushBack c rest) + 1 := by
  simpa [size] using (pop_perm h).length_eq

theorem mergeCursors_perm {fuel : ℕ} (hfuel : size cs ≤ fuel) :
    (mergeCursors key fuel cs).Perm (cs.flatMap Cursor.items) := by
  induction fuel generalizing cs with
  | zero =>
    have : cs.flatMap Cursor.items = [] := length_eq_zero_iff.mp (by simpa [size] using hfuel)
    rw [this]
    exact Perm.refl _
  | succ fuel ih =>
    rw [mergeCursors]
    rcases e : popHeap (cursorLt key) cs with - | ⟨c, rest⟩
    · rw [popHeap_eq_none.mp e]
      exact Perm.refl _
    · have hsize := size_pushBack e
      exact ((ih (by omega)).cons _).trans (pop_perm e).symm

/-- Each cursor is strictly sorted. -/
def Ascending (key : α → K) (cs : List (Cursor α)) : Prop :=
  ∀ c ∈ cs, (c.head :: c.tail).Pairwise fun a b => key a < key b

theorem Ascending.pushBack (h : Ascending key (c :: rest)) : Ascending key (pushBack c rest) := by
  obtain ⟨prio, head, tail⟩ := c
  intro d hd
  rcases tail with - | ⟨a, l⟩
  · exact h d (mem_cons_of_mem _ hd)
  · rcases mem_append.mp hd with hd' | hd'
    · exact h d (mem_cons_of_mem _ hd')
    · obtain rfl := mem_singleton.mp hd'
      exact (pairwise_cons.mp (h _ mem_cons_self)).2

/-- Moreover, no two cursors share a priority. -/
structure Sorted (key : α → K) (cs : List (Cursor α)) : Prop where
  each : Ascending key cs
  prios : cs.Pairwise fun c d => c.prio ≠ d.prio

theorem Sorted.perm {ds : List (Cursor α)} (h : Sorted key cs) (hp : cs.Perm ds) : Sorted key ds :=
  ⟨fun c hc => h.each c (hp.symm.subset hc), (hp.pairwise_iff (fun h => h.symm)).mp h.prios⟩

theorem Sorted.pushBack (h : Sorted key (c :: rest)) : Sorted key (pushBack c rest) := by
  refine ⟨h.each.pushBack, ?_⟩
  obtain ⟨prio, head, tail⟩ := c
  obtain ⟨hc, hrest⟩ := pairwise_cons.mp h.prios
  rcases tail with - | ⟨a, l⟩
  · exact hrest
  · refine pairwise_append.mpr ⟨hrest, by simp, ?_⟩
    intro d hd d' hd'
    obtain rfl := mem_singleton.mp hd'
    exact (hc d hd).symm

theorem pop_cases (hs : Ascending key cs) (h : popHeap (cursorLt key) cs = some (c, rest))
    {b : α × ℕ} (hb : b ∈ (pushBack c rest).flatMap Cursor.items) :
    key c.head < key b.1 ∨ key c.head = key b.1 ∧ ∃ d ∈ rest, b.2 = d.prio ∧ d.prio ≤ c.prio := by
  obtain ⟨hperm, hmax⟩ := popHeap_spec cursorLt_asymm cursorLt_false_trans h
  have hs' : Ascending key (c :: rest) := fun d hd => hs d (hperm.symm.subset hd)
  have hb' : b ∈ c.tail.map (·, c.prio) ∨ ∃ d ∈ rest, b ∈ d.items := by
    obtain ⟨prio, head, tail⟩ := c
    rcases tail with - | ⟨a, l⟩
    · exact .inr (mem_flatMap.mp hb)
    · obtain ⟨d, hd, hbd⟩ := mem_flatMap.mp hb
      rcases mem_append.mp hd with hd' | hd'
      · exact .inr ⟨d, hd', hbd⟩
      · obtain rfl := mem_singleton.mp hd'
        exact .inl hbd
  rcases hb' with htail | ⟨d, hd, hbd⟩
  · -- behind the front of the same source
    obtain ⟨a, ha, rfl⟩ := mem_map.mp htail
    exact .inl ((pairwise_cons.mp (hs' c mem_cons_self)).1 a ha)
  · -- in another source: its own front is not before `c`
    obtain ⟨a, ha, rfl⟩ := mem_map.mp hbd
    have hfront := cursorLt_false_iff.mp (hmax d hd)
    rcases mem_cons.mp ha with rfl | ha'
    · exact hfront.imp_right fun ⟨hk, hp⟩ => ⟨hk, d, hd, rfl, hp⟩
    · have hlt := (pairwise_cons.mp (hs' d (mem_cons_of_mem _ hd))).1 a ha'
      exact .inl (hfront.elim (·.trans hlt) fun ⟨hk, _⟩ => hk ▸ hlt)

/-- **The order rule.**  What the popped front has to everything that is left orders the
merged sequence. -/
theorem mergeCursors_pairwise {P : List (Cursor α) → Prop} {R : α × ℕ → α × ℕ → Prop}
    (hpop : ∀ cs c rest, P cs → popHeap (cursorLt key) cs = some (c, rest) →
      P (pushBack c rest) ∧
        ∀ b ∈ (pushBack c rest).flatMap Cursor.items, R (c.head, c.prio) b)
    {fuel : ℕ} (hs : P cs) (hfuel : size cs ≤ fuel) : (mergeCursors key fuel cs).Pairwise R := by
  induction fuel generalizing cs with
  | zero => exact Pairwise.nil
  | succ fuel ih =>
    rw [mergeCursors]
    rcases e : popHeap (cursorLt key) cs with - | ⟨c, rest⟩
    · exact Pairwise.nil
    · have hsize := size_pushBack e
      obtain ⟨hrest, hfront⟩ := hpop cs c rest hs e
      refine pairwise_cons.mpr ⟨?_, ih hrest (by omega)⟩
      exact fun b hb => hfront b ((mergeCursors_perm (by omega)).subset hb)

theorem mergeCursors_le {fuel : ℕ} (hs : Ascending key cs) (hfuel : size cs ≤ fuel) :
    (mergeCursors key fuel cs).Pairwise fun a b => key a.1 ≤ key b.1 := by
  refine mergeCursors_pairwise (P := Ascending key) (fun cs c rest hs h => ⟨?_, fun b hb => ?_⟩)
    hs hfuel
  · have hperm := (popHeap_spec cursorLt_asymm cursorLt_false_trans h).1
    exact Ascending.pushBack fun d hd => hs d (hperm.symm.subset hd)
  · exact (pop_cases hs h hb).elim le_of_lt fun e => e.1.le

/-- The order of the merged sequence. -/
def Before (key : α → K) (a b : α × ℕ) : Prop :=
  key a.1 < key b.1 ∨ key a.1 = key b.1 ∧ b.2 < a.2

/-- **The merged sequence is sorted**: keys ascending and, under one key,
priorities descending. -/
theorem mergeCursors_sorted {fuel : ℕ} (hs : Sorted key cs) (hfuel : size cs ≤ fuel) :
    (mergeCursors key fuel cs).Pairwise (Before key) := by
  refine mergeCursors_pairwise (P := Sorted key) (fun cs c rest hs h => ?_) hs hfuel
  have hs' := hs.perm (popHeap_spec cursorLt_asymm cursorLt_false_trans h).1
  refine ⟨hs'.pushBack, fun b hb => (pop_cases hs.each h hb).imp_right ?_⟩
  rintro ⟨hkey, d, hd, hprio, hle⟩
  have hne : c.prio ≠ d.prio := (pairwise_cons.mp hs'.prios).1 d hd
  exact ⟨hkey, hprio ▸ lt_of_le_of_ne hle hne.symm⟩

theorem sorted_le {l : List (α × ℕ)} (h : l.Pairwise (Before key)) :
    l.Pairwise fun a b => key a.1 ≤ key b.1 :=
  h.imp fun hab => hab.elim le_of_lt fun e => e.1.le

theorem lookup_sorted_iff {l : List (α × ℕ)} (h : l.Pairwise (Before key)) {k : K}
    {x : α × ℕ} :
    KeyedList.lookup (fun p => key p.1) l k = some x ↔
      x ∈ l ∧ key x.1 = k ∧ ∀ y ∈ l, key y.1 = k → y.2 ≤ x.2 := by
  induction l with
  | nil => simp
  | cons a l ih =>
    obtain ⟨ha, hl⟩ := pairwise_cons.mp h
    have hlower : ∀ y ∈ l, key a.1 = k → key y.1 = k → y.2 < a.2 := by
      intro y hy hak hyk
      rcases ha y hy with hlt | ⟨-, hlt⟩
      · exact absurd (hak.trans hyk.symm) hlt.ne
      · exact hlt
    rw [KeyedList.lookup_cons]
    split
    · next hak =>
      constructor
      · rintro ⟨⟩
        refine ⟨mem_cons_self, hak, fun y hy hyk => ?_⟩
        rcases mem_cons.mp hy with rfl | hy'
        · exact le_rfl
        · exact (hlower y hy' hak hyk).le
      · rintro ⟨hx, hxk, hmax⟩
        rcases mem_cons.mp hx with rfl | hx'
        · rfl
        · exact absurd (hlower x hx' hak hxk) (hmax a mem_cons_self hak).not_gt
    · next hak =>
      rw [ih hl]
      constructor
      · rintro ⟨hx, hxk, hmax⟩
        refine ⟨mem_cons_of_mem _ hx, hxk, fun y hy hyk => ?_⟩
        rcases mem_cons.mp hy with rfl | hy'
        · exact absurd hyk hak
        · exact hmax y hy' hyk
      · rintro ⟨hx, hxk, hmax⟩
        rcases mem_cons.mp hx with rfl | hx'
        · exact absurd hxk hak
        · exact ⟨hx', hxk, fun y hy => hmax y (mem_cons_of_mem _ hy)⟩

end KWayMerge
