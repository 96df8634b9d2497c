/-
HedgeDB/Skiplist.lean

The in-memory table (`src/db/skiplist.h`, `skiplist_wrapper` of
`src/db/memtable.cc`).

The concurrent skip list is an ordered set under `memtable_cmp`: keys
ascending and, under one key, sequence numbers descending, so that the newest
version of a key is met first.  Inserting an entry whose key and sequence
number are both present changes nothing.  `skiplist_wrapper::get` takes the
lower bound of `(key, UINT64_MAX)`, which no stored sequence number exceeds:
it is the first entry whose key is not below `key`.

A table carries its order as a field, so an unordered table cannot be built.
-/
import HedgeDB.KeyedList
import HedgeDB.Types

namespace HedgeDB

open List hiding lookup_cons lookup
open KeyedList

variable {K : Type*} [LinearOrder K]

structure MemtableEntry (K : Type*) where
  key : K
  seq : ℕ
  value : Bytes
  deriving DecidableEq, Repr

/-- `memtable_cmp`: a higher sequence number is newer and comes first. -/
def memtableCmp (a b : MemtableEntry K) : Bool :=
  if a.key ≠ b.key then a.key < b.key else a.seq > b.seq

variable {a b : MemtableEntry K}

theorem memtableCmp_iff :
    memtableCmp a b = true ↔ a.key < b.key ∨ a.key = b.key ∧ b.seq < a.seq := by
  unfold memtableCmp
  by_cases h : a.key = b.key <;> simp [h]

theorem memtableCmp_trans {c : MemtableEntry K} (hab : memtableCmp a b = true)
    (hbc : memtableCmp b c = true) : memtableCmp a c = true := by
  rw [memtableCmp_iff] at hab hbc ⊢
  rcases hab with h | ⟨h, hs⟩ <;> rcases hbc with h' | ⟨h', hs'⟩
  · exact .inl (h.trans h')
  · exact .inl (h' ▸ h)
  · exact .inl (h ▸ h')
  · exact .inr ⟨h.trans h', hs'.trans hs⟩

theorem memtableCmp_total (hab : memtableCmp a b = false) (hba : memtableCmp b a = false) :
    a.key = b.key ∧ a.seq = b.seq := by
  rw [← Bool.not_eq_true, memtableCmp_iff, not_or, not_and, not_lt] at hab hba
  have hk : a.key = b.key := le_antisymm hba.1 hab.1
  exact ⟨hk, le_antisymm (not_lt.mp (hab.2 hk)) (not_lt.mp (hba.2 hk.symm))⟩

/-! ### Ordered insertion -/

/-- Ordered-set insertion under `memtable_cmp`. -/
def insertEntry (e : MemtableEntry K) : List (MemtableEntry K) → List (MemtableEntry K)
  | [] => [e]
  | a :: l =>
      if memtableCmp a e then a :: insertEntry e l
      else if memtableCmp e a then e :: a :: l
      else a :: l

variable {e : MemtableEntry K} {l : List (MemtableEntry K)}

theorem mem_insertEntry (h : a ∈ insertEntry e l) : a = e ∨ a ∈ l := by
  induction l with
  | nil => exact .inl (by simpa [insertEntry] using h)
  | cons b l ih =>
    rw [insertEntry] at h
    split_ifs at h
    · rcases mem_cons.mp h with rfl | h'
      · exact .inr mem_cons_self
      · exact (ih h').imp_right (mem_cons_of_mem b)
    · exact mem_cons.mp h
    · exact .inr h

theorem mem_insertEntry_of_mem (h : a ∈ l) : a ∈ insertEntry e l := by
  induction l with
  | nil => simp at h
  | cons b l ih =>
    rw [insertEntry]
    split_ifs
    · rcases mem_cons.mp h with rfl | h'
      · exact mem_cons_self
      · exact mem_cons_of_mem b (ih h')
    · exact mem_cons_of_mem e h
    · exact h

theorem exists_seq_insertEntry (e : MemtableEntry K) (l : List (MemtableEntry K)) :
    ∃ a ∈ insertEntry e l, a.key = e.key ∧ a.seq = e.seq := by
  induction l with
  | nil => exact ⟨e, by simp [insertEntry], rfl, rfl⟩
  | cons b l ih =>
    rw [insertEntry]
    split_ifs with h h'
    · obtain ⟨a, ha, hk⟩ := ih
      exact ⟨a, mem_cons_of_mem b ha, hk⟩
    · exact ⟨e, mem_cons_self, rfl, rfl⟩
    · exact ⟨b, mem_cons_self,
        memtableCmp_total (by simpa using h) (by simpa using h')⟩

theorem insertEntry_sorted (e : MemtableEntry K)
    (hl : l.Pairwise fun a b => memtableCmp a b = true) :
    (insertEntry e l).Pairwise fun a b => memtableCmp a b = true := by
  induction l with
  | nil => simp [insertEntry]
  | cons b l ih =>
    obtain ⟨hb, hl'⟩ := pairwise_cons.mp hl
    rw [insertEntry]
    split_ifs with h h'
    · refine pairwise_cons.mpr ⟨?_, ih hl'⟩
      intro a ha
      rcases mem_insertEntry ha with rfl | ha'
      · exact h
      · exact hb a ha'
    · refine pairwise_cons.mpr ⟨?_, hl⟩
      intro a ha
      rcases mem_cons.mp ha with rfl | ha'
      · exact h'
      · exact memtableCmp_trans h' (hb a ha')
    · exact hl

theorem sorted_keys (hl : l.Pairwise fun a b => memtableCmp a b = true) :
    l.Pairwise fun a b => a.key ≤ b.key :=
  hl.imp fun h => (memtableCmp_iff.mp h).elim le_of_lt fun h => h.1.le

variable {k : K}

theorem lookup_insertEntry_ne (hk : e.key ≠ k) (l : List (MemtableEntry K)) :
    lookup MemtableEntry.key (insertEntry e l) k = lookup MemtableEntry.key l k := by
  induction l with
  | nil => simp [insertEntry, lookup_cons, hk]
  | cons b l ih =>
    rw [insertEntry]
    split_ifs
    · rw [lookup_cons, lookup_cons, ih]
    · rw [lookup_cons, if_neg hk]
    · rfl

theorem lookup_newest (hl : l.Pairwise fun a b => memtableCmp a b = true)
    (ha : lookup MemtableEntry.key l k = some a) (he : e ∈ l) (hk : e.key = k) : e.seq ≤ a.seq := by
  induction l with
  | nil => simp at he
  | cons b l ih =>
    obtain ⟨hb, hl'⟩ := pairwise_cons.mp hl
    rw [lookup_cons] at ha
    split at ha
    · next hbk =>
      obtain rfl := Option.some.inj ha
      rcases mem_cons.mp he with rfl | he'
      · exact le_rfl
      · rcases memtableCmp_iff.mp (hb e he') with hlt | ⟨-, hseq⟩
        · exact absurd (hbk.trans hk.symm) hlt.ne
        · exact hseq.le
    · next hbk =>
      rcases mem_cons.mp he with rfl | he'
      · exact absurd hk hbk
      · exact ih hl' ha he'

theorem lookup_insertEntry_self (hl : l.Pairwise fun a b => memtableCmp a b = true)
    (hnew : ∀ a ∈ l, a.key = e.key → a.seq < e.seq) :
    lookup MemtableEntry.key (insertEntry e l) e.key = some e := by
  induction l with
  | nil => simp [insertEntry, lookup_cons]
  | cons b l ih =>
    obtain ⟨hb, hl'⟩ := pairwise_cons.mp hl
    have hb' : b.key = e.key → b.seq < e.seq := hnew b mem_cons_self
    rw [insertEntry]
    split_ifs with h h'
    · have hlt : b.key ≠ e.key := by
        intro hk
        rcases memtableCmp_iff.mp h with hlt | ⟨-, hseq⟩
        · exact absurd hk hlt.ne
        · exact absurd (hb' hk) hseq.not_gt
      rw [lookup_cons, if_neg hlt]
      exact ih hl' fun a ha => hnew a (mem_cons_of_mem b ha)
    · rw [lookup_cons, if_pos rfl]
    · obtain ⟨hk, hs⟩ := memtableCmp_total (a := b) (b := e) (by simpa using h)
        (by simpa using h')
      exact absurd hs (hb' hk).ne

/-! ### Tables -/

/-- The contents of a table, ordered under `memtable_cmp`. -/
structure Skiplist (K : Type*) [LinearOrder K] where
  entries : List (MemtableEntry K)
  sorted : entries.Pairwise fun a b => memtableCmp a b = true

namespace Skiplist

def empty : Skiplist K := ⟨[], Pairwise.nil⟩

/-- `skiplist_wrapper::insert`, the sequence number already drawn. -/
def insert (t : Skiplist K) (e : MemtableEntry K) : Skiplist K :=
  ⟨insertEntry e t.entries, insertEntry_sorted e t.sorted⟩

/-- `skiplist_wrapper::get`: the first entry not below `(key, UINT64_MAX)`,
when it is under `key`. -/
def get (t : Skiplist K) (k : K) : Option (MemtableEntry K) :=
  ((t.entries.dropWhile fun e => e.key < k).head?).filter fun e => e.key = k

theorem get_eq_lookup (t : Skiplist K) (k : K) :
    t.get k = lookup MemtableEntry.key t.entries k := by
  obtain ⟨l, hl⟩ := t
  unfold get
  dsimp only
  induction l with
  | nil => rfl
  | cons a l ih =>
    obtain ⟨ha, hl'⟩ := pairwise_cons.mp hl
    rw [dropWhile_cons, lookup_cons]
    rcases lt_trichotomy a.key k with h | h | h
    · rw [if_pos (by simpa using h), if_neg h.ne, ih hl']
    · simp [h]
    · rw [if_neg (by simpa using h.le), if_neg h.ne', eq_comm]
      simp only [head?_cons, Option.filter_some, h.ne', decide_false]
      refine lookup_eq_none_iff.mpr fun b hb => ?_
      have hab := (pairwise_cons.mp (sorted_keys hl)).1 b hb
      exact (lt_of_lt_of_le h hab).ne'

@[simp] theorem get_empty (k : K) : (empty : Skiplist K).get k = none := rfl

theorem get_insert_ne (t : Skiplist K) (hk : e.key ≠ k) : (t.insert e).get k = t.get k := by
  rw [get_eq_lookup, get_eq_lookup]
  exact lookup_insertEntry_ne hk t.entries

theorem get_insert_self (t : Skiplist K) (hnew : ∀ a ∈ t.entries, a.key = e.key → a.seq < e.seq) :
    (t.insert e).get e.key = some e := by
  rw [get_eq_lookup]
  exact lookup_insertEntry_self t.sorted hnew

variable {t : Skiplist K}

theorem mem_insert (h : a ∈ (t.insert e).entries) : a = e ∨ a ∈ t.entries :=
  mem_insertEntry h

theorem mem_insert_self (hnew : ∀ a ∈ t.entries, a.seq < e.seq) : e ∈ (t.insert e).entries := by
  obtain ⟨a, ha, -, hseq⟩ := exists_seq_insertEntry e t.entries
  rcases mem_insert ha with rfl | hold
  · exact ha
  · exact absurd hseq (hnew a hold).ne

theorem mem_insert_of_mem (h : a ∈ t.entries) : a ∈ (t.insert e).entries :=
  mem_insertEntry_of_mem h

end Skiplist

end HedgeDB
