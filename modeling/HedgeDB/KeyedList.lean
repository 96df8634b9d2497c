/-
HedgeDB/KeyedList.lean

Lists of keyed items, read as finite maps.

An item type `α` comes with a projection `key : α → K` into a linear order.
`lookup key l k` is the first item of `l` under `k`; on a list that is sorted
by key and may repeat keys, `firsts` keeps exactly those items, one for each
key.  The two facts used everywhere are

    lookup key (firsts key none l) k = lookup key l k        (`lookup_firsts`)

and that `firsts` of a sorted list is strictly sorted (`firsts_strict`).
Nothing here is about a particular item type.
-/
import Mathlib.Algebra.Order.Ring.Nat
import Mathlib.Data.List.Basic
import Mathlib.Tactic.Common

namespace KeyedList

open List

variable {α K : Type*} [LinearOrder K] {key : α → K}

/-! ### Lookup -/

/-- The first item of `l` under the key `k`. -/
def lookup (key : α → K) (l : List α) (k : K) : Option α :=
  l.find? fun a => key a = k

@[simp] theorem lookup_nil (k : K) : lookup key [] k = none := rfl

theorem lookup_cons (a : α) (l : List α) (k : K) :
    lookup key (a :: l) k = if key a = k then some a else lookup key l k := by
  unfold lookup
  rw [find?_cons]
  by_cases h : key a = k <;> simp [h]

theorem lookup_append (l l' : List α) (k : K) :
    lookup key (l ++ l') k = (lookup key l k).or (lookup key l' k) :=
  find?_append

variable {l : List α} {k : K}

theorem lookup_eq_none_iff : lookup key l k = none ↔ ∀ a ∈ l, key a ≠ k := by
  simp [lookup, find?_eq_none]

variable {a : α}

theorem lookup_mem (h : lookup key l k = some a) : a ∈ l ∧ key a = k := by
  refine ⟨mem_of_find?_eq_some h, ?_⟩
  simpa using find?_some h

theorem lookup_map {β : Type*} (f : β → α) (l : List β) (k : K) :
    lookup key (l.map f) k = (lookup (fun b => key (f b)) l k).map f := by
  rw [lookup, lookup, find?_map]
  rfl

theorem lookup_filter (l : List α) (p : K → Bool) (k : K) (hk : p k = true) :
    lookup key (l.filter fun a => p (key a)) k = lookup key l k := by
  induction l with
  | nil => rfl
  | cons a l ih =>
    rw [lookup_cons, ← ih]
    by_cases hp : p (key a) = true
    · rw [filter_cons_of_pos (p := fun a => p (key a)) hp, lookup_cons]
    · rw [filter_cons_of_neg (p := fun a => p (key a)) hp, if_neg]
      rintro rfl
      exact hp hk

theorem lookup_eq_some_iff (hl : l.Pairwise fun a b => key a < key b) :
    lookup key l k = some a ↔ a ∈ l ∧ key a = k := by
  refine ⟨lookup_mem, ?_⟩
  rintro ⟨hmem, rfl⟩
  induction l with
  | nil => simp at hmem
  | cons b l ih =>
    obtain ⟨hb, hl'⟩ := pairwise_cons.mp hl
    rw [lookup_cons]
    rcases mem_cons.mp hmem with rfl | h
    · simp
    · rw [if_neg (ne_of_lt (hb a h)), ih hl' h]

theorem lookup_reverse_of_last {j : ℕ} (hj : l[j]? = some a)
    (hlast : ∀ i b, l[i]? = some b → key b = key a → i ≤ j) :
    lookup key l.reverse (key a) = some a := by
  induction l generalizing j with
  | nil => cases hj
  | cons b l ih =>
    rw [reverse_cons, lookup_append]
    rcases j with - | j
    · -- nothing behind the head has the key
      obtain rfl : b = a := Option.some.inj hj
      have hnone : lookup key l.reverse (key b) = none := by
        refine lookup_eq_none_iff.mpr fun c hc hk => ?_
        obtain ⟨i, hi⟩ := mem_iff_getElem?.mp (mem_reverse.mp hc)
        exact Nat.not_succ_le_zero i (hlast (i + 1) c hi hk)
      rw [hnone, lookup_cons, if_pos rfl]
      rfl
    · rw [ih hj fun i c hi hk => Nat.le_of_succ_le_succ (hlast (i + 1) c hi hk)]
      rfl

/-! ### One item per key -/

/-- Drop each item whose key is that of the item kept before it. -/
def firsts (key : α → K) : Option K → List α → List α
  | _, [] => []
  | prev, a :: l =>
      if prev = some (key a) then firsts key prev l
      else a :: firsts key (some (key a)) l

theorem firsts_cons (prev : Option K) (a : α) (l : List α) :
    firsts key prev (a :: l) = if prev = some (key a) then firsts key prev l
      else a :: firsts key (some (key a)) l :=
  rfl

theorem firsts_map {β : Type*} (f : β → α) (prev : Option K) (l : List β) :
    firsts key prev (l.map f) = (firsts (fun b => key (f b)) prev l).map f := by
  induction l generalizing prev with
  | nil => rfl
  | cons b l ih =>
    rw [map_cons, firsts_cons, firsts_cons, ih, ih]
    split <;> rfl

theorem firsts_some_append (h : ∀ a ∈ l, key a = k) (l' : List α) :
    firsts key (some k) (l ++ l') = firsts key (some k) l' := by
  induction l with
  | nil => rfl
  | cons a l ih =>
    obtain ⟨ha, hl⟩ := forall_mem_cons.mp h
    rw [cons_append, firsts_cons, if_pos (congrArg some ha.symm)]
    exact ih hl

theorem firsts_some_of_ne (h : ∀ a ∈ l, key a ≠ k) : firsts key (some k) l = firsts key none l := by
  rcases l with - | ⟨a, l⟩
  · rfl
  · have ha := h a mem_cons_self
    rw [firsts_cons, firsts_cons, if_neg fun heq => ha (Option.some.inj heq).symm, if_neg nofun]

theorem firsts_sublist (prev : Option K) (l : List α) :
    (firsts key prev l).Sublist l := by
  induction l generalizing prev with
  | nil => exact Sublist.slnil
  | cons a l ih =>
    rw [firsts_cons]
    split
    · exact (ih _).cons a
    · exact (ih _).cons_cons a

theorem exists_mem_firsts (prev : Option K) (ha : a ∈ l) :
    prev = some (key a) ∨ ∃ b ∈ firsts key prev l, key b = key a := by
  induction l generalizing prev with
  | nil => cases ha
  | cons c l ih =>
    rw [firsts_cons]
    split
    · next hprev =>
      rcases mem_cons.mp ha with rfl | ha'
      · exact .inl hprev
      · exact ih prev ha'
    · rcases mem_cons.mp ha with rfl | ha'
      · exact .inr ⟨a, mem_cons_self, rfl⟩
      · rcases ih (some (key c)) ha' with hc | ⟨b, hb, hkey⟩
        · exact .inr ⟨c, mem_cons_self, Option.some.inj hc⟩
        · exact .inr ⟨b, mem_cons_of_mem c hb, hkey⟩

theorem firsts_ne_of_ge {prev : K} (hl : ∀ a ∈ l, prev ≤ key a)
    (hs : l.Pairwise fun a b => key a ≤ key b) : ∀ a ∈ firsts key (some prev) l, prev < key a := by
  induction l with
  | nil => exact fun a ha => absurd ha not_mem_nil
  | cons b l ih =>
    obtain ⟨hb, hs'⟩ := pairwise_cons.mp hs
    intro a ha
    rw [firsts_cons] at ha
    split at ha
    · exact ih (fun a h => hl a (mem_cons_of_mem b h)) hs' a ha
    · next hne =>
      have hlt : prev < key b :=
        lt_of_le_of_ne (hl b mem_cons_self) fun e => hne (congrArg some e)
      rcases mem_cons.mp ha with rfl | h
      · exact hlt
      · exact lt_of_lt_of_le hlt (hb a ((firsts_sublist _ l).subset h))

theorem firsts_strict (prev : Option K) (hs : l.Pairwise fun a b => key a ≤ key b) :
    (firsts key prev l).Pairwise fun a b => key a < key b := by
  induction l generalizing prev with
  | nil => exact Pairwise.nil
  | cons a l ih =>
    obtain ⟨ha, hs'⟩ := pairwise_cons.mp hs
    rw [firsts_cons]
    split
    · exact ih prev hs'
    · exact pairwise_cons.mpr ⟨firsts_ne_of_ge ha hs', ih _ hs'⟩

theorem lookup_firsts_of_ne (prev : Option K) (hs : l.Pairwise fun a b => key a ≤ key b)
    (hk : prev ≠ some k) : lookup key (firsts key prev l) k = lookup key l k := by
  induction l generalizing prev with
  | nil => rfl
  | cons a l ih =>
    obtain ⟨ha, hs'⟩ := pairwise_cons.mp hs
    rw [firsts_cons, lookup_cons]
    split
    · next h =>
      have hak : key a ≠ k := by
        rintro rfl
        exact hk h
      rw [if_neg hak]
      exact ih prev hs' hk
    · rw [lookup_cons]
      split
      · rfl
      · next hak => exact ih _ hs' (by simpa using hak)

theorem lookup_firsts (hs : l.Pairwise fun a b => key a ≤ key b) (k : K) :
    lookup key (firsts key none l) k = lookup key l k :=
  lookup_firsts_of_ne none hs (by simp)

theorem mem_firsts_iff (hs : l.Pairwise fun a b => key a ≤ key b) :
    a ∈ firsts key none l ↔ lookup key l (key a) = some a := by
  rw [← lookup_firsts hs, lookup_eq_some_iff (firsts_strict none hs)]
  simp

/-! ### The largest number of a list -/

section Largest

variable {β : Type*} (f : β → ℕ)

theorem le_foldl_max (l : List β) (m : ℕ) :
    m ≤ l.foldl (fun acc b => max acc (f b)) m ∧
      ∀ b ∈ l, f b ≤ l.foldl (fun acc b => max acc (f b)) m := by
  induction l generalizing m with
  | nil => simp
  | cons a l ih =>
    obtain ⟨hm, hl⟩ := ih (max m (f a))
    refine ⟨(le_max_left _ _).trans hm, fun b hb => ?_⟩
    rcases mem_cons.mp hb with rfl | hb'
    · exact (le_max_right _ _).trans hm
    · exact hl b hb'

theorem foldl_max_le {l : List β} {m n : ℕ} (hm : m ≤ n) (h : ∀ b ∈ l, f b ≤ n) :
    l.foldl (fun acc b => max acc (f b)) m ≤ n := by
  induction l generalizing m with
  | nil => exact hm
  | cons a l ih =>
    exact ih (max_le hm (h a mem_cons_self)) fun b hb => h b (mem_cons_of_mem _ hb)

theorem foldl_max_mem {l : List β} (hne : l ≠ []) :
    ∃ b ∈ l, l.foldl (fun acc b => max acc (f b)) 0 = f b := by
  by_contra hnone
  push Not at hnone
  -- otherwise every number is below the largest one
  have hlt : ∀ b ∈ l, f b < l.foldl (fun acc b => max acc (f b)) 0 :=
    fun b hb => lt_of_le_of_ne ((le_foldl_max f l 0).2 b hb) (hnone b hb).symm
  obtain ⟨a, ha⟩ := exists_mem_of_ne_nil _ hne
  have hpos := Nat.zero_lt_of_lt (hlt a ha)
  have hle : l.foldl (fun acc b => max acc (f b)) 0 ≤
      l.foldl (fun acc b => max acc (f b)) 0 - 1 :=
    foldl_max_le f (Nat.zero_le _) fun b hb => Nat.le_sub_one_of_lt (hlt b hb)
  omega

end Largest

end KeyedList
