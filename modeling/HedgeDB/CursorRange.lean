/-
HedgeDB/CursorRange.lean

What a cursor over a table yields (`memtable_cursor` of `src/db/merge/sst_stream.h`).

The nodes of the list are ordered by key, the versions of a key from the newest to the
oldest, so those with a sequence number above `_max_seq` come first and all behind
them are visible.  A cursor stands on one node of a segment of the list, from the
lower bound to one node past the first that is not below the upper bound, and its two
loops drop nodes of the segment (`OnSegment`).

`pop_front` skips what is invisible and then the other versions of the key.  When the
second loop moves, it comes to rest on the newest version of the next key, visible or
not (`NoHiddenNext`).  The segment has one node of the upper key (`upperVisible`), and
it is one only if the bounds are not too far the wrong way round (`inFront`).
`MemtableCursor.yields_visible_iff` puts the three conditions together.
-/
import Mathlib.Data.List.TakeWhile
import HedgeDB.RangeScan

namespace HedgeDB

open List hiding lookup
open KeyedList Option

variable {K : Type*} [LinearOrder K]

/-! ### Nodes and positions -/

variable {a e b : MemtableEntry K} {l rest : List (MemtableEntry K)}

section Positions

variable {t : Skiplist K} {endIt : Option (MemtableEntry K)} {p : MemtableEntry K → Bool}

theorem memtableCmp_asymm (h : memtableCmp a b = true) : memtableCmp b a = false := by
  rw [← Bool.not_eq_true, memtableCmp_iff]
  rcases memtableCmp_iff.mp h with hlt | ⟨heq, hseq⟩
  · rintro (hlt' | ⟨heq', -⟩)
    · exact lt_asymm hlt hlt'
    · exact hlt.ne heq'.symm
  · rintro (hlt' | ⟨-, hseq'⟩)
    · exact hlt'.ne heq.symm
    · exact lt_asymm hseq hseq'

theorem memtableCmp_self (a : MemtableEntry K) : memtableCmp a a = false := by
  rw [← Bool.not_eq_true, memtableCmp_iff]
  simp

theorem eq_of_key_of_seq (hl : l.Pairwise fun a b => memtableCmp a b = true) (ha : a ∈ l)
    (hb : b ∈ l) (hkey : a.key = b.key) (hseq : a.seq = b.seq) : a = b := by
  have hne : memtableCmp a b = false ∧ memtableCmp b a = false := by
    simp [memtableCmp, hkey, hseq]
  induction l with
  | nil => cases ha
  | cons c l ih =>
    obtain ⟨hc, hl'⟩ := pairwise_cons.mp hl
    rcases mem_cons.mp ha with rfl | ha'
    · rcases mem_cons.mp hb with rfl | hb'
      · rfl
      · exact absurd (hc b hb') (by simp [hne.1])
    · rcases mem_cons.mp hb with rfl | hb'
      · exact absurd (hc a ha') (by simp [hne.2])
      · exact ih hl' ha' hb'

theorem next_eq (h : e :: l <:+ t.entries) : t.next e = l.head? := by
  obtain ⟨before, hb⟩ := h
  have hs := t.sorted
  rw [← hb] at hs
  obtain ⟨-, hs', hbefore⟩ := pairwise_append.mp hs
  have hnone : before.find? (fun a => memtableCmp e a) = none := by
    rw [find?_eq_none]
    intro a ha
    rw [memtableCmp_asymm (hbefore a ha e mem_cons_self)]
    simp
  rw [Skiplist.next, ← hb, find?_append, hnone, none_or,
    find?_cons_of_neg (by rw [memtableCmp_self]; simp)]
  rcases l with - | ⟨x, l⟩
  · rfl
  · exact find?_cons_of_pos ((pairwise_cons.mp hs').1 x mem_cons_self)

omit [LinearOrder K] in
theorem head_dropWhile (h : a ∈ (l.dropWhile p).head?) : p a = false := by
  have := head?_dropWhile_not p l
  rw [mem_def.mp h] at this
  simpa using this

omit [LinearOrder K] in
theorem suffix_dropWhile {after : List (MemtableEntry K)} (h : a :: after <:+ l)
    (ha : p a = false) : a :: after <:+ l.dropWhile p := by
  induction l with
  | nil => cases suffix_nil.mp h
  | cons b l ih =>
    rw [dropWhile_cons]
    split
    · next hb =>
      rcases suffix_cons_iff.mp h with heq | htail
      · obtain ⟨rfl, -⟩ := cons.inj heq
        rw [ha] at hb
        cases hb
      · exact ih htail
    · exact h

theorem skipWhile_suffix {fuel : ℕ} (h : l <:+ t.entries) (hfuel : l.length ≤ fuel) :
    ∃ l', l' <:+ l ∧ skipWhile t endIt p fuel l.head? = l'.head? ∧
      ∀ a ∈ l'.head?, some a = endIt ∨ p a = false := by
  induction fuel generalizing l with
  | zero =>
    obtain rfl := length_eq_zero_iff.mp (Nat.le_zero.mp hfuel)
    exact ⟨[], suffix_rfl, rfl, nofun⟩
  | succ fuel ih =>
    rcases l with - | ⟨e, l⟩
    · exact ⟨[], suffix_rfl, rfl, nofun⟩
    · rw [head?_cons, skipWhile]
      split
      · obtain ⟨l', hsuffix, hrest, hstop⟩ :=
          ih ((suffix_cons e l).trans h) (Nat.le_of_succ_le_succ hfuel)
        exact ⟨l', hsuffix.trans (suffix_cons e l), by rw [next_eq h, hrest], hstop⟩
      · next hstop =>
        refine ⟨e :: l, suffix_rfl, rfl, ?_⟩
        intro a ha
        obtain rfl := some.inj ha
        rw [not_and_or, not_not, Bool.not_eq_true] at hstop
        exact hstop

theorem head_ne_of_suffix (h : e :: l ++ rest <:+ t.entries) : some e ≠ rest.head? := by
  intro heq
  have hs := t.sorted.sublist h.sublist
  rw [cons_append] at hs
  have hmem : e ∈ l ++ rest := mem_append_right l (mem_of_mem_head? heq.symm)
  have hcmp := (pairwise_cons.mp hs).1 e hmem
  rw [memtableCmp_self] at hcmp
  cases hcmp

theorem skipWhile_segment {fuel : ℕ} {seg : List (MemtableEntry K)}
    (h : seg ++ rest <:+ t.entries) (hfuel : seg.length ≤ fuel) :
    skipWhile t rest.head? p fuel (seg ++ rest).head? = (seg.dropWhile p ++ rest).head? := by
  induction seg generalizing fuel with
  | nil =>
    rcases fuel with - | fuel
    · rfl
    · rcases hr : rest with - | ⟨e, rest'⟩
      · rfl
      · simp [skipWhile]
  | cons e seg ih =>
    obtain ⟨fuel, rfl⟩ : ∃ n, fuel = n + 1 := ⟨fuel - 1, by simp at hfuel; omega⟩
    have hne := head_ne_of_suffix h
    rw [cons_append] at h ⊢
    rw [head?_cons, skipWhile, next_eq h, dropWhile_cons]
    by_cases hp : p e = true
    · rw [if_pos ⟨hne, hp⟩, if_pos hp]
      exact ih ((suffix_cons e _).trans h) (Nat.le_of_succ_le_succ hfuel)
    · rw [if_neg (fun hand => hp hand.2), if_neg hp]
      rfl

end Positions

/-! ### A cursor on a segment -/

/-- The nodes left after `pop_front` on the first of `e :: l`. -/
def afterPop (maxSeq : ℕ) (e : MemtableEntry K) (l : List (MemtableEntry K)) :
    List (MemtableEntry K) :=
  (l.dropWhile fun a => maxSeq < a.seq).dropWhile fun a => a.key = e.key

/-- A cursor at the start of the nodes `seg`, with `rest` from its end on. -/
structure OnSegment (t : Skiplist K) (maxSeq : ℕ) (seg rest : List (MemtableEntry K))
    (c : MemtableCursor K) : Prop where
  suffix : seg ++ rest <:+ t.entries
  it : c.it = (seg ++ rest).head?
  endIt : c.endIt = rest.head?
  maxSeq : c.maxSeq = maxSeq

namespace OnSegment

variable {t : Skiplist K} {maxSeq : ℕ} {seg rest : List (MemtableEntry K)} {c : MemtableCursor K}

theorem isEof_iff (h : OnSegment t maxSeq seg rest c) : c.isEof = true ↔ seg = [] := by
  rw [MemtableCursor.isEof, decide_eq_true_iff, h.it, h.endIt]
  constructor
  · intro heq
    rcases seg with - | ⟨e, seg⟩
    · rfl
    · exact absurd heq (head_ne_of_suffix h.suffix)
  · rintro rfl
    rfl

theorem length_le (h : OnSegment t maxSeq seg rest c) : seg.length ≤ t.entries.length :=
  ((sublist_append_left seg rest).trans h.suffix.sublist).length_le

theorem dropWhile_suffix (h : seg ++ rest <:+ t.entries) (p : MemtableEntry K → Bool) :
    seg.dropWhile p ++ rest <:+ t.entries := by
  obtain ⟨before, hb⟩ := List.dropWhile_suffix (l := seg) p
  refine (suffix_append before _).trans ?_
  rw [← append_assoc, hb]
  exact h

theorem skipInvisible (h : OnSegment t maxSeq seg rest c) :
    OnSegment t maxSeq (seg.dropWhile fun e => maxSeq < e.seq) rest (c.skipInvisible t) := by
  refine ⟨dropWhile_suffix h.suffix _, ?_, h.endIt, h.maxSeq⟩
  rw [MemtableCursor.skipInvisible, h.it, h.endIt, h.maxSeq]
  exact skipWhile_segment h.suffix h.length_le

theorem skipDuplicateKeys (h : OnSegment t maxSeq seg rest c) (key : K) :
    OnSegment t maxSeq (seg.dropWhile fun e => e.key = key) rest (c.skipDuplicateKeys t key) := by
  refine ⟨dropWhile_suffix h.suffix _, ?_, h.endIt, h.maxSeq⟩
  rw [MemtableCursor.skipDuplicateKeys, h.it, h.endIt]
  exact skipWhile_segment h.suffix h.length_le

theorem popFront (h : OnSegment t maxSeq (e :: seg) rest c) :
    c.it = some e ∧
      OnSegment t maxSeq (afterPop maxSeq e seg) rest (c.popFront t) := by
  have hit : c.it = some e := h.it
  have hnext : OnSegment t maxSeq seg rest { c with it := t.next e } :=
    ⟨(suffix_cons e _).trans h.suffix, next_eq h.suffix, h.endIt, h.maxSeq⟩
  refine ⟨hit, ?_⟩
  rw [MemtableCursor.popFront, hit]
  exact hnext.skipInvisible.skipDuplicateKeys e.key

end OnSegment

/-- The entries that a cursor at the start of a segment yields. -/
inductive Walks (maxSeq : ℕ) : List (MemtableEntry K) → List (MemtableEntry K) → Prop
  | nil : Walks maxSeq [] []
  | cons {e : MemtableEntry K} {l es : List (MemtableEntry K)}
      (h : Walks maxSeq (afterPop maxSeq e l) es) : Walks maxSeq (e :: l) (e :: es)

variable {es : List (MemtableEntry K)}

section Walking

variable {t : Skiplist K} {maxSeq : ℕ} {seg rest : List (MemtableEntry K)} {c : MemtableCursor K}

theorem Walks.yields (h : Walks maxSeq seg es) (hc : OnSegment t maxSeq seg rest c) :
    c.Yields t (es.map MemtableEntry.toRecord) := by
  induction h generalizing c with
  | nil => exact .eof (hc.isEof_iff.mpr rfl)
  | cons _ ih =>
    obtain ⟨hit, hpop⟩ := hc.popFront
    refine .entry ?_ hit (ih hpop)
    rw [← Bool.not_eq_true, hc.isEof_iff]
    exact cons_ne_nil _ _

theorem walks_of_yields {l : List (Record K)} (h : c.Yields t l)
    (hc : OnSegment t maxSeq seg rest c) :
    ∃ es, Walks maxSeq seg es ∧ l = es.map MemtableEntry.toRecord := by
  induction h generalizing seg with
  | eof heof =>
    obtain rfl := hc.isEof_iff.mp heof
    exact ⟨[], .nil, rfl⟩
  | entry hnot hit _ ih =>
    rcases seg with - | ⟨e, seg⟩
    · exact absurd (hc.isEof_iff.mpr rfl) (by rw [hnot]; exact nofun)
    · obtain ⟨hit', hpop⟩ := hc.popFront
      obtain rfl := some.inj (hit.symm.trans hit')
      obtain ⟨es, hwalk, rfl⟩ := ih hpop
      exact ⟨_, .cons hwalk, rfl⟩

theorem MemtableCursor.Yields.unique {l l' : List (Record K)} (h : c.Yields t l)
    (h' : c.Yields t l') : l = l' := by
  induction h generalizing l' with
  | eof heof =>
    cases h' with
    | eof _ => rfl
    | entry hnot _ _ => exact absurd (heof.symm.trans hnot) nofun
  | entry hnot hit _ ih =>
    cases h' with
    | eof heof => exact absurd (heof.symm.trans hnot) nofun
    | entry _ hit' hrest =>
      obtain rfl := some.inj (hit.symm.trans hit')
      rw [ih hrest]

end Walking

/-! ### What a walk passes over -/

/-- Where a key has two visible versions, the newest version of the next key is visible:
the loop over the versions comes to rest on it. -/
def NoHiddenNext (maxSeq : ℕ) (l : List (MemtableEntry K)) : Prop :=
  ∀ e₁ e₂ e₃ after, e₁ :: e₂ :: e₃ :: after <:+ l → e₁.key = e₂.key → e₂.key ≠ e₃.key →
    e₁.seq ≤ maxSeq → e₃.seq ≤ maxSeq

omit [LinearOrder K] in
theorem filter_dropWhile_hidden (maxSeq : ℕ) (l : List (MemtableEntry K)) :
    (l.dropWhile fun a => maxSeq < a.seq).filter (fun a => a.seq ≤ maxSeq) =
      l.filter fun a => a.seq ≤ maxSeq := by
  induction l with
  | nil => rfl
  | cons a l ih =>
    by_cases ha : maxSeq < a.seq
    · rw [dropWhile_cons_of_pos (by simpa using ha), ih, filter_cons_of_neg (by simpa using ha)]
    · rw [dropWhile_cons_of_neg (by simpa using ha)]

omit [LinearOrder K] in
theorem visible_head_dropWhile {maxSeq : ℕ} :
    ∀ a ∈ (l.dropWhile fun a => maxSeq < a.seq).head?, a.seq ≤ maxSeq := by
  intro a ha
  simpa using head_dropWhile ha

section Step

variable {maxSeq : ℕ} {e : MemtableEntry K} {l : List (MemtableEntry K)}

theorem afterPop_suffix (maxSeq : ℕ) (e : MemtableEntry K) (l : List (MemtableEntry K)) :
    afterPop maxSeq e l <:+ l :=
  (dropWhile_suffix _).trans (dropWhile_suffix _)

theorem length_afterPop_lt (maxSeq : ℕ) (e : MemtableEntry K) (l : List (MemtableEntry K)) :
    (afterPop maxSeq e l).length < (e :: l).length :=
  Nat.lt_succ_of_le (afterPop_suffix maxSeq e l).length_le

variable (hs : (e :: l).Pairwise fun a b => memtableCmp a b = true)

include hs

theorem visible_of_same_key (hvis : e.seq ≤ maxSeq) (ha : a ∈ l) (hkey : a.key = e.key) :
    a.seq ≤ maxSeq := by
  rcases memtableCmp_iff.mp ((pairwise_cons.mp hs).1 a ha) with hlt | ⟨-, hseq⟩
  · exact absurd hkey hlt.ne'
  · exact hseq.le.trans hvis

theorem key_ne_of_suffix {l' : List (MemtableEntry K)} (hsuffix : l' <:+ l)
    (hother : ∀ b ∈ l'.head?, b.key ≠ e.key) (ha : a ∈ l') : a.key ≠ e.key := by
  obtain ⟨b, l', rfl⟩ := exists_cons_of_ne_nil (ne_nil_of_mem ha)
  obtain ⟨hhead, htail⟩ := pairwise_cons.mp (sorted_keys hs)
  have hlt : e.key < b.key :=
    lt_of_le_of_ne (hhead b (hsuffix.subset mem_cons_self)) (hother b rfl).symm
  have hle : b.key ≤ a.key := by
    rcases mem_cons.mp ha with rfl | ha'
    · exact le_rfl
    · exact (pairwise_cons.mp (htail.sublist hsuffix.sublist)).1 a ha'
  exact (hlt.trans_le hle).ne'

theorem key_ne_of_mem_afterPop (ha : a ∈ afterPop maxSeq e l) : a.key ≠ e.key := by
  refine key_ne_of_suffix hs (afterPop_suffix maxSeq e l) ?_ ha
  intro b hb
  simpa using head_dropWhile hb

theorem firsts_afterPop :
    firsts MemtableEntry.key (some e.key) (l.filter fun a => a.seq ≤ maxSeq) =
      firsts MemtableEntry.key none ((afterPop maxSeq e l).filter fun a => a.seq ≤ maxSeq) := by
  obtain ⟨same, hv⟩ : ∃ same, (l.dropWhile fun a => maxSeq < a.seq).takeWhile
      (fun a => a.key = e.key) = same := ⟨_, rfl⟩
  have hsplit : (l.dropWhile fun a => maxSeq < a.seq) = same ++ afterPop maxSeq e l := by
    rw [← hv, afterPop, takeWhile_append_dropWhile]
  have hsame : ∀ a ∈ same.filter (fun a => a.seq ≤ maxSeq), a.key = e.key := by
    intro a ha
    have := mem_takeWhile_imp (hv ▸ mem_of_mem_filter ha)
    simpa using this
  have hother : ∀ a ∈ (afterPop maxSeq e l).filter (fun a => a.seq ≤ maxSeq), a.key ≠ e.key :=
    fun a ha => key_ne_of_mem_afterPop hs (mem_of_mem_filter ha)
  rw [← filter_dropWhile_hidden, hsplit, filter_append, firsts_some_append hsame,
    firsts_some_of_ne hother]

theorem afterPop_append (hvis : e.seq ≤ maxSeq) {same : List (MemtableEntry K)}
    (hl : l = same ++ rest) (hne : same ≠ []) (hsame : ∀ a ∈ same, a.key = e.key)
    (hrest : ∀ a ∈ rest.head?, a.key ≠ e.key) : afterPop maxSeq e l = rest := by
  obtain ⟨a, same, rfl⟩ := exists_cons_of_ne_nil hne
  have ha : ¬ maxSeq < a.seq := by
    rw [not_lt]
    exact visible_of_same_key hs hvis (hl ▸ mem_cons_self) (hsame a mem_cons_self)
  rw [afterPop, hl, cons_append, dropWhile_cons_of_neg (by simpa using ha),
    ← cons_append, dropWhile_append_of_pos (by simpa using hsame)]
  rcases rest with - | ⟨b, rest⟩
  · rfl
  · exact dropWhile_cons_of_neg (by simpa using hrest b rfl)

theorem afterPop_of_ne (hother : ∀ a ∈ l.head?, a.key ≠ e.key) :
    afterPop maxSeq e l = l.dropWhile fun a => maxSeq < a.seq := by
  rw [afterPop, dropWhile_eq_self_iff]
  intro hlen
  have hmem := (dropWhile_suffix _).subset (get_mem _ ⟨0, hlen⟩)
  simpa using key_ne_of_suffix hs suffix_rfl hother hmem

theorem visible_head_afterPop (hvis : e.seq ≤ maxSeq) (hnext : NoHiddenNext maxSeq (e :: l)) :
    ∀ a ∈ (afterPop maxSeq e l).head?, a.seq ≤ maxSeq := by
  obtain ⟨same, hsame⟩ : ∃ same, l.takeWhile (fun a => a.key = e.key) = same := ⟨_, rfl⟩
  obtain ⟨rest, hrest⟩ : ∃ rest, l.dropWhile (fun a => a.key = e.key) = rest := ⟨_, rfl⟩
  have hl : l = same ++ rest := by rw [← hsame, ← hrest, takeWhile_append_dropWhile]
  have hkeys : ∀ a ∈ same, a.key = e.key := by
    intro a ha
    have := mem_takeWhile_imp (hsame ▸ ha)
    simpa using this
  have hother : ∀ a ∈ rest.head?, a.key ≠ e.key := by
    intro a ha
    have := head_dropWhile (hrest ▸ ha)
    simpa using this
  rcases eq_nil_or_concat same with rfl | ⟨front, e₂, rfl⟩
  · -- no other version: the first loop stops at a visible node
    obtain rfl : l = rest := hl
    rw [afterPop_of_ne hs hother]
    exact visible_head_dropWhile
  · -- the second loop moves: the last two nodes it leaves behind are versions of the key
    rw [afterPop_append hs hvis hl (by simp) hkeys hother]
    intro e₃ he₃
    obtain ⟨after, rfl⟩ : ∃ after, rest = e₃ :: after := head?_eq_some_iff.mp he₃
    obtain ⟨before, e₁, hlast⟩ : ∃ before e₁, e :: front = before ++ [e₁] := by
      rcases eq_nil_or_concat (e :: front) with h | ⟨before, e₁, h⟩
      · cases h
      · exact ⟨before, e₁, by simpa using h⟩
    have hmem₁ : e₁ ∈ e :: front := by
      rw [hlast]
      exact mem_append_right before mem_cons_self
    have hkey₂ : e₂.key = e.key := hkeys e₂ (by simp)
    have hfirst : e₁.key = e.key ∧ e₁.seq ≤ maxSeq := by
      rcases mem_cons.mp hmem₁ with rfl | hmem
      · exact ⟨rfl, hvis⟩
      · have hkey₁ := hkeys e₁ (by simp [hmem])
        exact ⟨hkey₁, visible_of_same_key hs hvis (by simp [hl, hmem]) hkey₁⟩
    refine hnext e₁ e₂ e₃ after ⟨before, ?_⟩ (hfirst.1.trans hkey₂.symm) ?_ hfirst.2
    · have hsplit : e :: l = (e :: front) ++ e₂ :: e₃ :: after := by
        rw [hl]
        simp
      rw [hsplit, hlast]
      simp
    · rw [hkey₂]
      exact (hother e₃ rfl).symm

theorem noHiddenNext_of_afterPop (hvis : e.seq ≤ maxSeq)
    (hhead : ∀ a ∈ (afterPop maxSeq e l).head?, a.seq ≤ maxSeq)
    (hrest : NoHiddenNext maxSeq (afterPop maxSeq e l)) : NoHiddenNext maxSeq (e :: l) := by
  intro e₁ e₂ e₃ after hsuffix hsame hother hvis₁
  by_cases hkey : e₁.key = e.key
  · -- the versions of the key up to `e₂` are all that `pop_front` passes over
    obtain ⟨before, hl⟩ := hsuffix
    have hsorted := sorted_keys hs
    have hall : ∀ a ∈ before ++ [e₁, e₂], a.key = e.key := by
      intro a ha
      have hle : a.key ≤ e₂.key := by
        rw [← hl] at hsorted
        rcases mem_append.mp ha with hbefore | hpair
        · exact (pairwise_append.mp hsorted).2.2 a hbefore e₂ (by simp)
        · rcases mem_pair.mp hpair with rfl | rfl
          · exact hsame.le
          · exact le_rfl
      have hge : e.key ≤ a.key := by
        have hmem : a ∈ e :: l := by
          rw [← hl]
          simp only [mem_append, mem_cons] at ha ⊢
          tauto
        rcases mem_cons.mp hmem with rfl | hmem'
        · exact le_rfl
        · exact (pairwise_cons.mp hsorted).1 a hmem'
      exact le_antisymm (hle.trans_eq (hsame.symm.trans hkey)) hge
    obtain ⟨x, same, hfront⟩ : ∃ x same, before ++ [e₁, e₂] = x :: same :=
      exists_cons_of_ne_nil (by simp)
    have hsplit : e :: l = x :: (same ++ e₃ :: after) := by
      rw [← hl, ← cons_append, ← hfront]
      simp
    have hne : same ≠ [] := by
      rintro rfl
      have := congrArg length hfront
      simp at this
    have hpop : afterPop maxSeq e l = e₃ :: after := by
      refine afterPop_append hs hvis (cons.inj hsplit).2 hne ?_ ?_
      · intro a ha
        exact hall a (hfront ▸ mem_cons_of_mem x ha)
      · intro a ha
        obtain rfl := some.inj ha
        exact fun h => hother (hsame.symm.trans (hkey.trans h.symm))
    exact hhead e₃ (by rw [hpop]; rfl)
  · refine hrest e₁ e₂ e₃ after ?_ hsame hother hvis₁
    have htail : e₁ :: e₂ :: e₃ :: after <:+ l := by
      rcases suffix_cons_iff.mp hsuffix with heq | htail
      · exact absurd (congrArg MemtableEntry.key (cons.inj heq).1) hkey
      · exact htail
    exact suffix_dropWhile (suffix_dropWhile htail (by simpa using hvis₁)) (by simpa using hkey)

end Step

/-! ### What a walk yields -/

section Walked

variable {maxSeq : ℕ} {seg : List (MemtableEntry K)}

/-- Where no hidden version comes first behind two visible ones, a walk yields the newest
visible version of each key. -/
theorem walks_firsts (hs : seg.Pairwise fun a b => memtableCmp a b = true)
    (hhead : ∀ a ∈ seg.head?, a.seq ≤ maxSeq) (hnext : NoHiddenNext maxSeq seg) :
    Walks maxSeq seg (firsts MemtableEntry.key none (seg.filter fun a => a.seq ≤ maxSeq)) := by
  induction hn : seg.length using Nat.strong_induction_on generalizing seg with
  | _ n ih =>
    rcases seg with - | ⟨e, l⟩
    · exact .nil
    · have hvis : e.seq ≤ maxSeq := hhead e rfl
      have hsuffix : afterPop maxSeq e l <:+ e :: l :=
        (afterPop_suffix maxSeq e l).trans (suffix_cons e l)
      rw [filter_cons_of_pos (by simpa using hvis), firsts,
        if_neg (some_ne_none e.key).symm,
        firsts_afterPop hs]
      refine .cons (ih _ ?_ (hs.sublist hsuffix.sublist) ?_ ?_ rfl)
      · exact hn ▸ length_afterPop_lt maxSeq e l
      · exact visible_head_afterPop hs hvis hnext
      · exact fun e₁ e₂ e₃ after h => hnext e₁ e₂ e₃ after (h.trans hsuffix)

theorem Walks.noHiddenNext (h : Walks maxSeq seg es)
    (hs : seg.Pairwise fun a b => memtableCmp a b = true) (hvis : ∀ e ∈ es, e.seq ≤ maxSeq) :
    (∀ a ∈ seg.head?, a.seq ≤ maxSeq) ∧ NoHiddenNext maxSeq seg := by
  induction h with
  | nil =>
    refine ⟨nofun, ?_⟩
    intro e₁ e₂ e₃ after hsuffix
    cases suffix_nil.mp hsuffix
  | @cons e l es _ ih =>
    obtain ⟨hvis₁, hvis'⟩ := forall_mem_cons.mp hvis
    have hsuffix := (afterPop_suffix maxSeq e l).trans (suffix_cons e l)
    obtain ⟨hhead, hnext⟩ := ih (hs.sublist hsuffix.sublist) hvis'
    refine ⟨?_, noHiddenNext_of_afterPop hs hvis₁ hhead hnext⟩
    intro a ha
    obtain rfl := some.inj ha
    exact hvis₁

theorem Walks.subset (h : Walks maxSeq seg es) : ∀ e ∈ es, e ∈ seg := by
  induction h with
  | nil => exact nofun
  | cons _ ih =>
    intro a ha
    rcases mem_cons.mp ha with rfl | ha'
    · exact mem_cons_self
    · exact mem_cons_of_mem _ ((afterPop_suffix ..).subset (ih a ha'))

end Walked

/-! ### The nodes of a range -/

section Range

variable (t : Skiplist K) (lower upper : Option K)

/-- The nodes from the first that is not below `lower` on. -/
def fromLower : List (MemtableEntry K) := t.entries.dropWhile fun a => lower.any (a.key < ·)

/-- The nodes from the first that is not below `upper` on; the cursor ends behind it. -/
def fromUpper : List (MemtableEntry K) := t.entries.dropWhile fun a => upper.all (a.key < ·)

@[simp] theorem fromLower_none : fromLower t none = t.entries := by
  rw [fromLower, dropWhile_eq_self_iff]
  simp

theorem fromLower_some (key : K) :
    fromLower t (some key) = t.entries.dropWhile fun a => a.key < key := rfl

@[simp] theorem fromUpper_none : fromUpper t none = [] := by
  rw [fromUpper, dropWhile_eq_nil_iff]
  simp

theorem Skiplist.lowerBound_eq (key : K) :
    t.lowerBound key = (t.entries.dropWhile fun a => a.key < key).head? := by
  rw [Skiplist.lowerBound, find?_eq_head?_dropWhile_not]
  congr 2
  funext a
  simp [← not_lt]

theorem lowerBound_bind_next (key : K) :
    (t.lowerBound key).bind t.next = (fromUpper t (some key)).tail.head? := by
  have hsuffix : fromUpper t (some key) <:+ t.entries := dropWhile_suffix _
  rw [Skiplist.lowerBound_eq]
  show (fromUpper t (some key)).head?.bind t.next = _
  rcases hu : fromUpper t (some key) with - | ⟨b, l⟩
  · rfl
  · exact next_eq (hu ▸ hsuffix)

theorem make_eq (table epoch maxSeq : ℕ) :
    MemtableCursor.make t table lower upper epoch maxSeq =
      MemtableCursor.skipInvisible t ⟨table, (fromLower t lower).head?,
        (fromUpper t upper).tail.head?, maxSeq, epoch⟩ := by
  rcases lower with - | key <;> rcases upper with - | key'
  · rw [fromLower_none, fromUpper_none]
    rfl
  · rw [fromLower_none, ← lowerBound_bind_next]
    rfl
  · rw [fromUpper_none, fromLower_some, ← Skiplist.lowerBound_eq]
    rfl
  · rw [fromLower_some, ← Skiplist.lowerBound_eq, ← lowerBound_bind_next]
    rfl

variable {t lower upper}

theorem mem_dropWhile_iff (hl : l.Pairwise fun a b => a.key ≤ b.key) {p : MemtableEntry K → Bool}
    (hp : ∀ a b, a.key ≤ b.key → p b = true → p a = true) :
    a ∈ l.dropWhile p ↔ a ∈ l ∧ p a = false := by
  induction l with
  | nil => simp
  | cons b l ih =>
    obtain ⟨hb, hl'⟩ := pairwise_cons.mp hl
    rw [dropWhile_cons]
    split
    · next hpb =>
      rw [ih hl', mem_cons]
      constructor
      · rintro ⟨ha, hpa⟩
        exact ⟨.inr ha, hpa⟩
      · rintro ⟨rfl | ha, hpa⟩
        · rw [hpb] at hpa
          cases hpa
        · exact ⟨ha, hpa⟩
    · next hpb =>
      constructor
      · intro ha
        refine ⟨ha, ?_⟩
        rw [← Bool.not_eq_true]
        intro hpa
        rcases mem_cons.mp ha with rfl | ha'
        · exact hpb hpa
        · exact hpb (hp b a (hb a ha') hpa)
      · exact fun h => h.1

theorem mem_fromLower : a ∈ fromLower t lower ↔ a ∈ t.entries ∧ ∀ l ∈ lower, l ≤ a.key := by
  rw [fromLower, mem_dropWhile_iff (sorted_keys t.sorted)]
  · rcases lower with - | key <;> simp
  · intro a b hab hb
    rcases lower with - | key
    · cases hb
    · simp only [any_some, decide_eq_true_eq] at hb ⊢
      exact hab.trans_lt hb

theorem mem_fromUpper : a ∈ fromUpper t upper ↔ a ∈ t.entries ∧ ∃ u ∈ upper, u ≤ a.key := by
  rw [fromUpper, mem_dropWhile_iff (sorted_keys t.sorted)]
  · rcases upper with - | key <;> simp
  · intro a b hab hb
    rcases upper with - | key
    · rfl
    · simp only [all_some, decide_eq_true_eq] at hb ⊢
      exact hab.trans_lt hb

theorem between_of_notMem {c : MemtableEntry K} (hc : c ∈ fromUpper t upper)
    (hnot : c ∉ fromLower t lower) :
    c ∈ t.entries ∧ ∃ l ∈ lower, ∃ u ∈ upper, u ≤ c.key ∧ c.key < l := by
  obtain ⟨hmem, u, hu, huc⟩ := mem_fromUpper.mp hc
  rw [mem_fromLower, not_and] at hnot
  obtain ⟨l, hl, hcl⟩ : ∃ l ∈ lower, c.key < l := by
    by_contra hall
    exact hnot hmem fun l hl => not_lt.mp fun hlt => hall ⟨l, hl, hlt⟩
  exact ⟨hmem, l, hl, u, hu, huc, hcl⟩

theorem tail_fromUpper_suffix : (fromUpper t upper).tail <:+ t.entries :=
  (tail_suffix _).trans (dropWhile_suffix _)

theorem notMem_of_suffix {l' : List (MemtableEntry K)} (h : e :: l <:+ t.entries) (h' : l' <:+ l) :
    e ∉ l' := by
  intro hmem
  have hcmp := (pairwise_cons.mp (t.sorted.sublist h.sublist)).1 e (h'.subset hmem)
  rw [memtableCmp_self] at hcmp
  cases hcmp

end Range

/-! ### A cursor that starts behind its end -/

/-- The end is a node in front of the one the cursor is at. -/
def PastEnd (t : Skiplist K) (c : MemtableCursor K) : Prop :=
  ∃ e after l, e :: after <:+ t.entries ∧ c.endIt = some e ∧ l <:+ after ∧ c.it = l.head?

namespace PastEnd

variable {t : Skiplist K} {c : MemtableCursor K}

theorem skipWhile (h : PastEnd t c) (p : MemtableEntry K → Bool) :
    PastEnd t { c with it := HedgeDB.skipWhile t c.endIt p t.entries.length c.it } := by
  obtain ⟨e, after, l, hsuffix, hend, hl, hit⟩ := h
  have hl' : l <:+ t.entries := hl.trans ((suffix_cons e after).trans hsuffix)
  obtain ⟨l', hl'', hrest, -⟩ : ∃ l', l' <:+ l ∧
      HedgeDB.skipWhile t c.endIt p t.entries.length l.head? = l'.head? ∧ _ :=
    skipWhile_suffix hl' hl'.length_le
  exact ⟨e, after, l', hsuffix, hend, hl''.trans hl, by rw [hit]; exact hrest⟩

theorem popFront (h : PastEnd t c) : PastEnd t (c.popFront t) := by
  rw [MemtableCursor.popFront]
  split
  · exact h
  · next a ha =>
    obtain ⟨e, after, l, hsuffix, hend, hl, hit⟩ := h
    obtain ⟨l', rfl⟩ : ∃ l', l = a :: l' := head?_eq_some_iff.mp (hit.symm.trans ha)
    have hl' : a :: l' <:+ t.entries := hl.trans ((suffix_cons e after).trans hsuffix)
    have hnext : PastEnd t { c with it := t.next a } :=
      ⟨e, after, l', hsuffix, hend, (suffix_cons a l').trans hl, next_eq hl'⟩
    exact (hnext.skipWhile _).skipWhile _

theorem not_yields (h : PastEnd t c) {l : List (Record K)} : ¬ c.Yields t l := by
  intro hy
  induction hy with
  | eof heof =>
    obtain ⟨e, after, l, hsuffix, hend, hl, hit⟩ := h
    rw [MemtableCursor.isEof, decide_eq_true_iff, hend] at heof
    exact notMem_of_suffix hsuffix hl (mem_of_mem_head? (hit.symm.trans heof))
  | entry _ _ _ ih => exact ih h.popFront

end PastEnd

/-! ### What the cursor yields -/

/-- Keys within the bounds. -/
def InRange (lower upper : Option K) (k : K) : Prop := (∀ l ∈ lower, l ≤ k) ∧ ∀ u ∈ upper, k ≤ u

instance (lower upper : Option K) (k : K) : Decidable (InRange lower upper k) :=
  inferInstanceAs (Decidable (_ ∧ _))

/-- A version with the largest sequence number up to `maxSeq` of its key. -/
structure NewestVisible (t : Skiplist K) (maxSeq : ℕ) (e : MemtableEntry K) : Prop where
  mem : e ∈ t.entries
  visible : e.seq ≤ maxSeq
  newest : ∀ a ∈ t.entries, a.key = e.key → a.seq ≤ maxSeq → a.seq ≤ e.seq

/-- What a cursor should yield: within the bounds the newest visible version of each key
that has a visible one, in increasing order, and nowhere an invisible one. -/
structure VisibleVersions (t : Skiplist K) (lower upper : Option K) (maxSeq : ℕ)
    (es : List (MemtableEntry K)) : Prop where
  increasing : (es.filter fun e => InRange lower upper e.key).Pairwise fun a b => a.key < b.key
  exact : ∀ e, e ∈ es.filter (fun e => InRange lower upper e.key) ↔
    InRange lower upper e.key ∧ NewestVisible t maxSeq e
  visible : ∀ e ∈ es, e.seq ≤ maxSeq

theorem exists_newestVisible {t : Skiplist K} {maxSeq : ℕ} (hb : b ∈ t.entries)
    (hvis : b.seq ≤ maxSeq) : ∃ e, NewestVisible t maxSeq e ∧ e.key = b.key := by
  have hmem : b ∈ t.entries.filter fun a => a.seq ≤ maxSeq :=
    mem_filter.mpr ⟨hb, by simpa using hvis⟩
  rcases hlookup : lookup MemtableEntry.key (t.entries.filter fun a => a.seq ≤ maxSeq) b.key
    with - | e
  · exact absurd rfl (lookup_eq_none_iff.mp hlookup b hmem)
  · obtain ⟨he, hkey⟩ := lookup_mem hlookup
    obtain ⟨he', hevis⟩ := mem_filter.mp he
    refine ⟨e, ⟨he', by simpa using hevis, ?_⟩, hkey⟩
    intro a ha hakey havis
    exact lookup_newest (t.sorted.sublist filter_sublist) hlookup
      (mem_filter.mpr ⟨ha, by simpa using havis⟩) (hakey.trans hkey)

/-- At most one node lies between bounds that are the wrong way round; if a version of the
upper key is visible all are; and behind two visible versions of a key within the bounds the
newest of the next key is visible. -/
structure CursorSound (t : Skiplist K) (lower upper : Option K) (maxSeq : ℕ) : Prop where
  inFront : ∀ l ∈ lower, ∀ u ∈ upper, ∀ a ∈ t.entries, ∀ b ∈ t.entries,
    u ≤ a.key → a.key < l → u ≤ b.key → b.key < l → a = b
  upperVisible : ∀ u ∈ upper, (∀ l ∈ lower, l ≤ u) → ∀ a ∈ t.entries, ∀ b ∈ t.entries,
    a.key = u → b.key = u → b.seq ≤ maxSeq → a.seq ≤ maxSeq
  noHidden : ∀ e₁ e₂ e₃ after, e₁ :: e₂ :: e₃ :: after <:+ t.entries →
    (∀ l ∈ lower, l ≤ e₁.key) → (∀ u ∈ upper, e₂.key < u) → e₁.key = e₂.key →
    e₂.key ≠ e₃.key → e₁.seq ≤ maxSeq → e₃.seq ≤ maxSeq

section Exact

variable {t : Skiplist K} {lower upper : Option K} {maxSeq : ℕ}

theorem start_cases (t : Skiplist K) (lower upper : Option K) :
    (fromUpper t upper).tail <:+ fromLower t lower ∨
      ∃ a b after, fromUpper t upper = a :: b :: after ∧ fromLower t lower <:+ after := by
  have hfrom : fromLower t lower <:+ t.entries := dropWhile_suffix _
  have htail : (fromUpper t upper).tail <:+ t.entries := tail_fromUpper_suffix
  rcases suffix_or_suffix_of_suffix htail hfrom with h | h
  · exact .inl h
  · rcases hu : fromUpper t upper with - | ⟨a, - | ⟨b, after⟩⟩
    · exact .inl nil_suffix
    · exact .inl nil_suffix
    · rw [hu, tail_cons] at h
      rcases suffix_cons_iff.mp h with heq | hafter
      · exact .inl (heq ▸ suffix_rfl)
      · exact .inr ⟨a, b, after, rfl, hafter⟩

theorem inFront_iff : (fromUpper t upper).tail <:+ fromLower t lower ↔
    ∀ l ∈ lower, ∀ u ∈ upper, ∀ a ∈ t.entries, ∀ b ∈ t.entries,
      u ≤ a.key → a.key < l → u ≤ b.key → b.key < l → a = b := by
  constructor
  · intro hsuffix l hl u hu a ha b hb hua hal hub hbl
    have hfirst : ∀ c ∈ t.entries, u ≤ c.key → c.key < l →
        (fromUpper t upper).head? = some c := by
      intro c hc huc hcl
      have hmem : c ∈ fromUpper t upper := mem_fromUpper.mpr ⟨hc, u, hu, huc⟩
      rcases hfrom : fromUpper t upper with - | ⟨d, after⟩
      · rw [hfrom] at hmem
        cases hmem
      · rw [hfrom] at hmem hsuffix
        rcases mem_cons.mp hmem with rfl | hafter
        · rfl
        · have hlower := (mem_fromLower.mp (hsuffix.subset hafter)).2 l hl
          exact absurd hcl hlower.not_gt
    exact some.inj ((hfirst a ha hua hal).symm.trans (hfirst b hb hub hbl))
  · intro hone
    rcases start_cases t lower upper with h | ⟨a, b, after, hu, hafter⟩
    · exact h
    · have hsuffix : a :: b :: after <:+ t.entries := hu ▸ dropWhile_suffix _
      have hsuffix' := (suffix_cons a _).trans hsuffix
      -- neither of the two is in the range, so both are below `lower`
      obtain ⟨ha, l, hl, u, hu', hua, hal⟩ := between_of_notMem (by rw [hu]; simp)
        (notMem_of_suffix hsuffix (hafter.trans (suffix_cons b after)))
      obtain ⟨hb, l', hl', u', hu'', hub, hbl⟩ := between_of_notMem (by rw [hu]; simp)
        (notMem_of_suffix hsuffix' hafter)
      obtain rfl := some.inj (hl.symm.trans hl')
      obtain rfl := some.inj (hu'.symm.trans hu'')
      have hab := hone l hl u hu' a ha b hb hua hal hub hbl
      exact absurd mem_cons_self (hab ▸ notMem_of_suffix hsuffix suffix_rfl)

theorem make_pastEnd (table epoch : ℕ)
    (h : ∃ a b after, fromUpper t upper = a :: b :: after ∧ fromLower t lower <:+ after) :
    PastEnd t (.make t table lower upper epoch maxSeq) := by
  obtain ⟨a, b, after, hu, hafter⟩ := h
  have hsuffix : a :: b :: after <:+ t.entries := hu ▸ dropWhile_suffix _
  rw [make_eq]
  refine PastEnd.skipWhile ⟨b, after, _, (suffix_cons a _).trans hsuffix, ?_, hafter, rfl⟩ _
  rw [hu]
  rfl

/-- The nodes of the range, up to the end of the cursor. -/
structure IsRange (t : Skiplist K) (lower upper : Option K) (seg : List (MemtableEntry K)) :
    Prop where
  eq : fromLower t lower = seg ++ (fromUpper t upper).tail

namespace IsRange

variable {seg : List (MemtableEntry K)}

theorem suffix (h : IsRange t lower upper seg) : seg ++ (fromUpper t upper).tail <:+ t.entries :=
  h.eq ▸ dropWhile_suffix _

theorem sorted (h : IsRange t lower upper seg) :
    seg.Pairwise fun a b => memtableCmp a b = true :=
  (pairwise_append.mp (t.sorted.sublist h.suffix.sublist)).1

theorem cmp (h : IsRange t lower upper seg) (ha : a ∈ seg) (hb : b ∈ (fromUpper t upper).tail) :
    memtableCmp a b = true :=
  (pairwise_append.mp (t.sorted.sublist h.suffix.sublist)).2.2 a ha b hb

theorem mem (h : IsRange t lower upper seg) (ha : a ∈ seg) :
    a ∈ t.entries ∧ ∀ l ∈ lower, l ≤ a.key :=
  mem_fromLower.mp (h.eq ▸ mem_append_left _ ha)

theorem mem_or (h : IsRange t lower upper seg) (ha : a ∈ t.entries)
    (hlower : ∀ l ∈ lower, l ≤ a.key) : a ∈ seg ∨ a ∈ (fromUpper t upper).tail :=
  mem_append.mp (h.eq ▸ mem_fromLower.mpr ⟨ha, hlower⟩)

theorem head_of_mem (h : IsRange t lower upper seg) (ha : a ∈ seg) (hu : a ∈ fromUpper t upper) :
    (fromUpper t upper).head? = some a := by
  have hnot : a ∉ (fromUpper t upper).tail := by
    intro htail
    have hcmp := h.cmp ha htail
    rw [memtableCmp_self] at hcmp
    cases hcmp
  rcases hfrom : fromUpper t upper with - | ⟨b, l⟩
  · rw [hfrom] at hu
    cases hu
  · rw [hfrom] at hu hnot
    rcases mem_cons.mp hu with rfl | hl
    · rfl
    · exact absurd hl hnot

theorem onSegment (h : IsRange t lower upper seg) (table epoch : ℕ) :
    OnSegment t maxSeq (seg.dropWhile fun a => maxSeq < a.seq) (fromUpper t upper).tail
      (.make t table lower upper epoch maxSeq) := by
  rw [make_eq]
  refine OnSegment.skipInvisible ⟨h.suffix, ?_, rfl, rfl⟩
  rw [← h.eq]

theorem mem_of_upperVisible (h : IsRange t lower upper seg)
    (hupper : ∀ u ∈ upper, (∀ l ∈ lower, l ≤ u) → ∀ a ∈ t.entries, ∀ b ∈ t.entries,
      a.key = u → b.key = u → b.seq ≤ maxSeq → a.seq ≤ maxSeq) (he : NewestVisible t maxSeq e)
    (hrange : InRange lower upper e.key) : e ∈ seg := by
  rcases h.mem_or he.mem hrange.1 with hseg | htail
  · exact hseg
  · -- the node in front of the end is a newer version of the same key
    exfalso
    rcases hu : fromUpper t upper with - | ⟨b, after⟩
    · rw [hu] at htail
      cases htail
    · have hsuffix : b :: after <:+ t.entries := hu ▸ dropWhile_suffix _
      rw [hu, tail_cons] at htail
      obtain ⟨hb, u, hmem, hub⟩ := mem_fromUpper.mp (hu ▸ mem_cons_self : b ∈ fromUpper t upper)
      have hcmp := (pairwise_cons.mp (t.sorted.sublist hsuffix.sublist)).1 e htail
      rcases memtableCmp_iff.mp hcmp with hlt | ⟨hkey, hseq⟩
      · exact absurd (hub.trans_lt hlt) (hrange.2 u hmem).not_gt
      · have hu' : e.key = u := le_antisymm (hrange.2 u hmem) (hub.trans_eq hkey)
        have hvis := hupper u hmem (fun l hl => (hrange.1 l hl).trans_eq hu') b hb e he.mem
          (hkey.trans hu') hu' he.visible
        exact absurd (he.newest b hb hkey hvis) hseq.not_ge

theorem newestVisible (h : IsRange t lower upper seg)
    (he : e ∈ firsts MemtableEntry.key none (seg.filter fun a => a.seq ≤ maxSeq)) :
    NewestVisible t maxSeq e := by
  have hsorted := h.sorted.sublist (filter_sublist (p := fun a => a.seq ≤ maxSeq))
  obtain ⟨hseg, hvis⟩ := mem_filter.mp ((firsts_sublist _ _).subset he)
  have hlookup := (mem_firsts_iff (sorted_keys hsorted)).mp he
  refine ⟨(h.mem hseg).1, by simpa using hvis, ?_⟩
  intro a ha hkey hvis'
  rcases h.mem_or ha (hkey ▸ (h.mem hseg).2) with haseg | htail
  · exact lookup_newest hsorted hlookup (mem_filter.mpr ⟨haseg, by simpa using hvis'⟩) hkey
  · rcases memtableCmp_iff.mp (h.cmp hseg htail) with hlt | ⟨-, hseq⟩
    · exact absurd hkey hlt.ne'
    · exact hseq.le

theorem mem_firsts_of_newest (h : IsRange t lower upper seg) (hseg : e ∈ seg)
    (he : NewestVisible t maxSeq e) :
    e ∈ firsts MemtableEntry.key none (seg.filter fun a => a.seq ≤ maxSeq) := by
  have hsorted := h.sorted.sublist (filter_sublist (p := fun a => a.seq ≤ maxSeq))
  have hmem : e ∈ seg.filter fun a => a.seq ≤ maxSeq :=
    mem_filter.mpr ⟨hseg, by simpa using he.visible⟩
  rw [mem_firsts_iff (sorted_keys hsorted)]
  rcases hlookup : lookup MemtableEntry.key (seg.filter fun a => a.seq ≤ maxSeq) e.key with - | a
  · exact absurd rfl (lookup_eq_none_iff.mp hlookup e hmem)
  · obtain ⟨hamem, hakey⟩ := lookup_mem hlookup
    obtain ⟨haseg, havis⟩ := mem_filter.mp hamem
    have hle := he.newest a (h.mem haseg).1 hakey (by simpa using havis)
    have hge := lookup_newest hsorted hlookup hmem rfl
    rw [eq_of_key_of_seq t.sorted (h.mem haseg).1 he.mem hakey (le_antisymm hle hge)]

theorem tail_suffix {e₁ e₂ e₃ : MemtableEntry K} {after : List (MemtableEntry K)}
    (hsuffix : e₁ :: e₂ :: e₃ :: after <:+ t.entries) (hupper : ∀ u ∈ upper, e₂.key < u) :
    (fromUpper t upper).tail <:+ after := by
  have hnot : e₂ ∉ fromUpper t upper := by
    intro hmem
    obtain ⟨-, u, hu, hle⟩ := mem_fromUpper.mp hmem
    exact (hupper u hu).not_ge hle
  have hsuffix' : e₂ :: e₃ :: after <:+ t.entries := (suffix_cons e₁ _).trans hsuffix
  have hfrom : fromUpper t upper <:+ t.entries := dropWhile_suffix _
  have hbehind : fromUpper t upper <:+ e₃ :: after := by
    rcases suffix_or_suffix_of_suffix hfrom hsuffix' with h | h
    · rcases suffix_cons_iff.mp h with heq | htail
      · exact absurd (heq ▸ mem_cons_self) hnot
      · exact htail
    · exact absurd (h.subset mem_cons_self) hnot
  rcases hu : fromUpper t upper with - | ⟨b, l⟩
  · exact nil_suffix
  · rw [hu] at hbehind
    rcases suffix_cons_iff.mp hbehind with heq | htail
    · rw [(cons.inj heq).2]
      exact suffix_rfl
    · exact (suffix_cons b l).trans htail

theorem noHiddenNext_iff (h : IsRange t lower upper seg) :
    NoHiddenNext maxSeq (seg.dropWhile fun a => maxSeq < a.seq) ↔
      ∀ e₁ e₂ e₃ after, e₁ :: e₂ :: e₃ :: after <:+ t.entries →
        (∀ l ∈ lower, l ≤ e₁.key) → (∀ u ∈ upper, e₂.key < u) → e₁.key = e₂.key →
        e₂.key ≠ e₃.key → e₁.seq ≤ maxSeq → e₃.seq ≤ maxSeq := by
  constructor
  · intro hnext e₁ e₂ e₃ after hsuffix hlower hupper hsame hother hvis
    obtain ⟨after', rfl⟩ := tail_suffix hsuffix hupper
    have hstart : lower.any (e₁.key < ·) = false := by
      rcases lower with - | l
      · rfl
      · simpa using hlower l rfl
    obtain ⟨before, hb⟩ : _ <:+ fromLower t lower := suffix_dropWhile hsuffix hstart
    have hseg : e₁ :: e₂ :: e₃ :: after' <:+ seg := by
      have hcancel : (before ++ e₁ :: e₂ :: e₃ :: after') ++ (fromUpper t upper).tail =
          seg ++ (fromUpper t upper).tail := by
        rw [← h.eq, ← hb, append_assoc]
        rfl
      exact ⟨before, append_cancel_right hcancel⟩
    exact hnext e₁ e₂ e₃ after' (suffix_dropWhile hseg (by simpa using hvis)) hsame hother hvis
  · intro hcond e₁ e₂ e₃ after hsuffix hsame hother hvis
    have hseg : e₁ :: e₂ :: e₃ :: after <:+ seg := hsuffix.trans (dropWhile_suffix _)
    have hall : e₁ :: e₂ :: e₃ :: (after ++ (fromUpper t upper).tail) <:+ t.entries := by
      obtain ⟨before, hb⟩ := hseg
      refine IsSuffix.trans ⟨before, ?_⟩ h.suffix
      rw [← hb]
      simp
    refine hcond e₁ e₂ e₃ _ hall (h.mem (hseg.subset mem_cons_self)).2 ?_ hsame hother hvis
    -- otherwise `e₂` and `e₃` are both the one node of the range not below `upper`
    intro u hu
    by_contra hge
    have hle : e₂.key ≤ e₃.key := by
      have hsorted := sorted_keys (h.sorted.sublist hseg.sublist)
      exact (pairwise_cons.mp (pairwise_cons.mp hsorted).2).1 e₃ mem_cons_self
    have hmem₂ : e₂ ∈ seg := hseg.subset (by simp)
    have hmem₃ : e₃ ∈ seg := hseg.subset (by simp)
    have hhead₂ := h.head_of_mem hmem₂ (mem_fromUpper.mpr ⟨(h.mem hmem₂).1, u, hu, not_lt.mp hge⟩)
    have hhead₃ := h.head_of_mem hmem₃
      (mem_fromUpper.mpr ⟨(h.mem hmem₃).1, u, hu, (not_lt.mp hge).trans hle⟩)
    exact hother (congrArg MemtableEntry.key (some.inj (hhead₂.symm.trans hhead₃)))

theorem yields (h : IsRange t lower upper seg) (table epoch : ℕ)
    (hnext : NoHiddenNext maxSeq (seg.dropWhile fun a => maxSeq < a.seq)) :
    (MemtableCursor.make t table lower upper epoch maxSeq).Yields t
      ((firsts MemtableEntry.key none (seg.filter fun a => a.seq ≤ maxSeq)).map
        MemtableEntry.toRecord) := by
  have hsorted := h.sorted.sublist (dropWhile_sublist fun a => decide (maxSeq < a.seq))
  have hwalks := walks_firsts hsorted visible_head_dropWhile hnext
  rw [filter_dropWhile_hidden] at hwalks
  exact hwalks.yields (h.onSegment table epoch)

theorem firsts_increasing (h : IsRange t lower upper seg) (maxSeq : ℕ) :
    (firsts MemtableEntry.key none (seg.filter fun a => a.seq ≤ maxSeq)).Pairwise
      fun a b => a.key < b.key :=
  firsts_strict none (sorted_keys (h.sorted.sublist filter_sublist))

/-- A cursor that yields the newest visible version of the upper key met no newer one. -/
theorem upperVisible_of_mem (h : IsRange t lower upper seg)
    (hmem : ∀ e, InRange lower upper e.key → NewestVisible t maxSeq e → e ∈ seg) :
    ∀ u ∈ upper, (∀ l ∈ lower, l ≤ u) → ∀ a ∈ t.entries, ∀ b ∈ t.entries,
      a.key = u → b.key = u → b.seq ≤ maxSeq → a.seq ≤ maxSeq := by
  intro u hu hlower a ha b hb hkey hkey' hvis
  obtain ⟨e, he, hekey⟩ := exists_newestVisible hb hvis
  have hrange : InRange lower upper e.key := by
    rw [hekey, hkey']
    exact ⟨hlower, fun u' hu' => (some.inj (hu.symm.trans hu')).le⟩
  have hupper : ∀ c ∈ t.entries, c.key = u → c ∈ fromUpper t upper := fun c hc hcu =>
    mem_fromUpper.mpr ⟨hc, u, hu, hcu.ge⟩
  have hhead := h.head_of_mem (hmem e hrange he) (hupper e he.mem (hekey.trans hkey'))
  obtain ⟨after, hfrom⟩ := head?_eq_some_iff.mp hhead
  have hsuffix : e :: after <:+ t.entries := hfrom ▸ dropWhile_suffix _
  have hamem := hupper a ha hkey
  rw [hfrom] at hamem
  rcases mem_cons.mp hamem with rfl | hafter
  · exact he.visible
  · exact visible_of_same_key (t.sorted.sublist hsuffix.sublist) he.visible hafter
      (hkey.trans (hekey.trans hkey').symm)

end IsRange

omit [LinearOrder K] in
theorem toRecord_injective : Function.Injective (MemtableEntry.toRecord (K := K)) := by
  rintro ⟨k, n, v⟩ ⟨k', n', v'⟩ h
  obtain ⟨rfl, rfl, rfl⟩ := Record.mk.inj h
  rfl

theorem IsRange.visibleVersions_iff {seg : List (MemtableEntry K)}
    (h : IsRange t lower upper seg) (table epoch : ℕ) :
    (∃ es : List (MemtableEntry K), (MemtableCursor.make t table lower upper epoch maxSeq).Yields t
        (es.map MemtableEntry.toRecord) ∧ VisibleVersions t lower upper maxSeq es) ↔
      CursorSound t lower upper maxSeq := by
  constructor
  · rintro ⟨es, hyields, hes⟩
    have hsorted := h.sorted.sublist (dropWhile_sublist fun a => decide (maxSeq < a.seq))
    obtain ⟨es', hwalks, heq⟩ := walks_of_yields hyields (h.onSegment table epoch)
    obtain rfl := toRecord_injective.list_map heq
    refine ⟨inFront_iff.mp ⟨seg, h.eq.symm⟩, h.upperVisible_of_mem ?_, ?_⟩
    · intro e hrange he
      have hmem := mem_of_mem_filter ((hes.exact e).mpr ⟨hrange, he⟩)
      exact (dropWhile_suffix _).subset (hwalks.subset e hmem)
    · exact h.noHiddenNext_iff.mp (hwalks.noHiddenNext hsorted hes.visible).2
  · intro hsound
    refine ⟨_, h.yields table epoch (h.noHiddenNext_iff.mpr hsound.noHidden),
      (h.firsts_increasing maxSeq).sublist filter_sublist, ?_, ?_⟩
    · intro e
      rw [mem_filter, decide_eq_true_eq, and_comm]
      refine and_congr_right fun hrange => ⟨h.newestVisible, fun he => ?_⟩
      exact h.mem_firsts_of_newest (h.mem_of_upperVisible hsound.upperVisible he hrange) he
    · intro e he
      exact (h.newestVisible he).visible

/-- **A cursor yields the visible versions exactly when it can.**  Within the bounds it
yields the newest version up to `max_seq` of each key that has one, in increasing order of
keys, and nowhere an entry above `max_seq`, if and only if `CursorSound` holds of the table,
the bounds and `max_seq`. -/
theorem MemtableCursor.yields_visible_iff (t : Skiplist K) (table : ℕ) (lower upper : Option K)
    (epoch maxSeq : ℕ) :
    (∃ es : List (MemtableEntry K), (MemtableCursor.make t table lower upper epoch maxSeq).Yields t
        (es.map MemtableEntry.toRecord) ∧ VisibleVersions t lower upper maxSeq es) ↔
      CursorSound t lower upper maxSeq := by
  rcases start_cases t lower upper with ⟨seg, hseg⟩ | hpast
  · exact IsRange.visibleVersions_iff ⟨hseg.symm⟩ table epoch
  · refine iff_of_false ?_ ?_
    · rintro ⟨es, hyields, -⟩
      exact (make_pastEnd table epoch hpast).not_yields hyields
    · intro hsound
      obtain ⟨a, b, after, hu, hafter⟩ := hpast
      have hfront := (inFront_iff.mpr hsound.inFront).trans hafter
      rw [hu] at hfront
      have := hfront.length_le
      simp at this

end Exact

/-! A table with two versions of each of two keys, the newer one of the second key written
after the reader's snapshot. -/

/-- The table of the cursor; its snapshot is 5. -/
def hiddenTable : Skiplist ℕ :=
  (((Skiplist.empty.insert ⟨1, 1, []⟩).insert ⟨1, 2, []⟩).insert ⟨2, 3, []⟩).insert ⟨2, 9, []⟩

theorem cursor_yields_invisible :
    (MemtableCursor.make hiddenTable 0 none none 0 5).Yields hiddenTable
        ([⟨1, 2, []⟩, ⟨2, 9, []⟩].map MemtableEntry.toRecord) ∧
      ¬ ∃ es : List (MemtableEntry ℕ), (MemtableCursor.make hiddenTable 0 none none 0 5).Yields
        hiddenTable (es.map MemtableEntry.toRecord) ∧
        VisibleVersions hiddenTable none none 5 es := by
  have hyields : (MemtableCursor.make hiddenTable 0 none none 0 5).Yields hiddenTable
      ([⟨1, 2, []⟩, ⟨2, 9, []⟩].map MemtableEntry.toRecord) :=
    .entry rfl rfl (.entry rfl rfl (.eof rfl))
  refine ⟨hyields, ?_⟩
  rintro ⟨es, hes, hvisible⟩
  obtain rfl := toRecord_injective.list_map (hes.unique hyields)
  exact absurd (hvisible.visible ⟨2, 9, []⟩ (by simp)) (by decide)

end HedgeDB
