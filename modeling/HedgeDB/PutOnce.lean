/-
HedgeDB/PutOnce.lean

How often a `put_async` call inserts its entry (`src/db/memtable.cc`).

After the insertion the call adds to `bytes_written`; when the table is over its
budget the call switches the table and goes round the loop again, so that it inserts
the entry once more, with a new sequence number and into a newer table.  Between the
two insertions a reader can see the value and a later write to the key can return.

`notePut` keeps a record of every call along a run of the memtable: its insertions,
how often it found the table over budget after one, when a reader first found one of
its entries.  The memtable itself is that of `Memtable`; the record does not touch it.
-/
import HedgeDB.TableSwitch

namespace HedgeDB

open Interleave Function

open List hiding modify
open SharedState

variable {K : Type*} [LinearOrder K] {n w : ℕ}

/-! ### The record of a run -/

/-- One `put_async` call: the step at which it started, with the table and the sequence
number that were current then; the tables and numbers of its insertions; how often it
found the table over budget after an insertion; whether it has returned; and the step at
which a reader first found an entry of it. -/
structure PutRecord where
  startedAt : ℕ
  startTable : ℕ
  startSeq : ℕ
  insertions : List (ℕ × ℕ) := []
  crossings : ℕ := 0
  returned : Bool := false
  observedAt : Option ℕ := none
  deriving DecidableEq, Repr

/-- The calls in the order of their start, and the call each thread is in. -/
structure PutLog (n : ℕ) where
  clock : ℕ := 0
  count : ℕ := 0
  records : ℕ → Option PutRecord := fun _ => none
  current : Fin n → ℕ := fun _ => 0

/-- What an action of `put_async` on table `i` adds to the record of its call. -/
def PutRecord.next (choice : Bool) (i : ℕ) (r : PutRecord) : PutPc → PutRecord
  | .drawn seq => if choice then { r with insertions := r.insertions ++ [(i, seq)] } else r
  | .inserted => if choice then r else { r with crossings := r.crossings + 1 }
  | .release true => { r with returned := true }
  | _ => r

/-- A reader finds the entry with number `seq` at step `clock`. -/
def PutRecord.found (clock seq : ℕ) (r : PutRecord) : PutRecord :=
  if seq ∈ r.insertions.map Prod.snd ∧ r.observedAt = none then
    { r with observedAt := some clock }
  else r

namespace PutLog

variable (L : PutLog n)

def begin (t : Fin n) (g : SharedState n K) : PutLog n :=
  { L with
    count := L.count + 1
    records := update L.records L.count (some ⟨L.clock, g.table, g.seqNr, [], 0, false, none⟩)
    current := update L.current t L.count }

def modify (m : ℕ) (f : PutRecord → PutRecord) : PutLog n :=
  { L with records := update L.records m ((L.records m).map f) }

def observe : Option ℕ → PutLog n
  | some seq => { L with records := fun m => (L.records m).map (PutRecord.found L.clock seq) }
  | none => L

def tick : PutLog n := { L with clock := L.clock + 1 }

end PutLog

/-- The number of the entry that the next action of `get` finds. -/
def SharedState.foundSeq (g : SharedState n K) (k : K) (i : ℕ) : GetPc → Option ℕ
  | .readTable => ((g.tables i).contents.get k).map MemtableEntry.seq
  | .search (j :: _) => ((g.tables j).contents.get k).map MemtableEntry.seq
  | .searchSsts =>
      (g.ssts.reverse.findSome? fun es => KeyedList.lookup MemtableEntry.key es k).map
        MemtableEntry.seq
  | _ => none

/-- What a thread's action adds to the record. -/
def noteAct (s : State (Fin n) (SharedState n K) (ThreadState K)) (t : Fin n)
    (L : PutLog n) : ThreadAct K → PutLog n
  | .startPut _ _ => L.begin t s.shared
  | .startGet _ => L
  | .run choice =>
      match (s.threads t).call with
      | .put _ _ i pc => L.modify (L.current t) fun r => r.next choice i pc
      | .get key _ _ i pc => L.observe (s.shared.foundSeq key i pc)
      | .idle => L

def notePut (s : State (Fin n) (SharedState n K) (ThreadState K))
    (a : Label (Fin n) (ThreadAct K) FlushAct) (L : PutLog n) : PutLog n :=
  match a with
  | .thread t a => (noteAct s t L a).tick
  | .background _ => L.tick

/-- The record of a run of a new memtable. -/
def putLog (w : ℕ) (as : List (Label (Fin n) (ThreadAct K) FlushAct)) : PutLog n :=
  Run.record (memtable n w K).step notePut (newMemtable n K) {} as

/-! ### What the records say -/

/-- The record `r` of a call, in a state with current table `table` and next sequence
number `seqNr`. -/
structure RecordOk (clock table seqNr : ℕ) (r : PutRecord) : Prop where
  started : r.startedAt < clock
  startTable : r.startTable ≤ table
  startSeq : r.startSeq ≤ seqNr
  insertions : ∀ x ∈ r.insertions,
    r.startTable ≤ x.1 ∧ x.1 ≤ table ∧ r.startSeq ≤ x.2 ∧ x.2 < seqNr
  length : r.insertions.length ≤ r.crossings + 1
  returned : r.returned = true → r.insertions.length = r.crossings + 1
  observed : r.observedAt ≠ none → r.insertions ≠ []

/-- The call has inserted its entry in this round of the loop. -/
def PutPc.inserts : PutPc → ℕ
  | .inserted | .release true => 1
  | _ => 0

/-- The record `r` of a call that is at `pc` with table `i`. -/
structure OpenRecord (seqNr i : ℕ) (pc : PutPc) (r : PutRecord) : Prop where
  returned : r.returned = false
  length : r.insertions.length = r.crossings + pc.inserts
  table : pc = .admitted ∨ (∃ seq, pc = .drawn seq) → r.startTable ≤ i
  drawn : ∀ seq, pc = .drawn seq → r.startSeq ≤ seq ∧ seq < seqNr

/-- The call is admitted to its table and has yet to insert its entry. -/
def PutPc.writing : PutPc → Bool
  | .admitted | .drawn _ => true
  | _ => false

variable {r : PutRecord} {i seqNr : ℕ} {pc : PutPc}

theorem OpenRecord.of_not_writing (hpc : pc.writing = false) (hreturned : r.returned = false)
    (hlength : r.insertions.length = r.crossings + pc.inserts) : OpenRecord seqNr i pc r := by
  refine ⟨hreturned, hlength, ?_, ?_⟩
  · rintro (rfl | ⟨seq, rfl⟩) <;> cases hpc
  · rintro seq rfl
    cases hpc

/-- A reader found an entry of `p` before `q` started, so the first insertion of `p` is
older than anything `q` does. -/
def Precedes (p q : PutRecord) : Prop :=
  ∀ τ ∈ p.observedAt, τ ≤ q.startedAt →
    ∀ x ∈ p.insertions.head?, x.1 ≤ q.startTable ∧ x.2 < q.startSeq

/-- The thread is in `put_async`. -/
def Call.isPut : Call K → Bool
  | .put _ _ _ _ => true
  | _ => false

structure PutLogOk (s : State (Fin n) (SharedState n K) (ThreadState K)) (L : PutLog n) :
    Prop where
  threads : Holds Sealed ThreadOk s
  fresh : ∀ m, L.count ≤ m → L.records m = none
  records : ∀ m r, L.records m = some r → RecordOk L.clock s.shared.table s.shared.seqNr r
  precedes : ∀ m m' p q, L.records m = some p → L.records m' = some q → Precedes p q
  calls : ∀ t key value i pc, (s.threads t).call = .put key value i pc →
    ∃ r, L.records (L.current t) = some r ∧ OpenRecord s.shared.seqNr i pc r
  distinct : ∀ t u, (s.threads t).call.isPut = true → (s.threads u).call.isPut = true → t ≠ u →
    L.current t ≠ L.current u

/-! ### What an action does to the records -/

theorem RecordOk.mono {clock table clock' table' seqNr' : ℕ} (h : RecordOk clock table seqNr r)
    (hclock : clock ≤ clock') (htable : table ≤ table') (hseq : seqNr ≤ seqNr') :
    RecordOk clock' table' seqNr' r := by
  refine ⟨h.started.trans_le hclock, h.startTable.trans htable, h.startSeq.trans hseq,
    fun x hx => ?_, h.length, h.returned, h.observed⟩
  obtain ⟨h₁, h₂, h₃, h₄⟩ := h.insertions x hx
  exact ⟨h₁, h₂.trans htable, h₃, h₄.trans_le hseq⟩

section Put

variable {t : Fin n} {slot : ℕ} {choice : Bool} {g g' : SharedState n K} {key : K}
  {value : Bytes} {i i' : ℕ} {pc : PutPc} {pc' : Option PutPc} {r : PutRecord} {clock : ℕ}

theorem putStep_seqNr_le (h : putStep t slot choice g key value i pc = (g', i', pc')) :
    g.seqNr ≤ g'.seqNr := by
  rcases putStep_write h with ⟨-, -, -, -, rfl⟩ | ⟨seq, -, -, -, rfl⟩ | ⟨-, -, hseq, -⟩
  · exact Nat.le_succ _
  · exact le_rfl
  · exact hseq.ge

theorem RecordOk.next (h : RecordOk clock g.table g.seqNr r) (hopen : OpenRecord g.seqNr i pc r)
    (hok : PutOk t g i pc) (choice : Bool) :
    RecordOk clock g.table g.seqNr (r.next choice i pc) := by
  cases pc with
  | drawn seq =>
    cases choice with
    | false => exact h
    | true =>
      have hlen := hopen.length
      obtain ⟨hge, hlt⟩ := hopen.drawn seq rfl
      refine ⟨h.started, h.startTable, h.startSeq, fun x hx => ?_, ?_, fun hret => ?_, ?_⟩
      · rcases mem_append.mp hx with hx' | hx'
        · exact h.insertions x hx'
        · obtain rfl := mem_singleton.mp hx'
          exact ⟨hopen.table (.inr ⟨seq, rfl⟩), hok.le, hge, hlt⟩
      · show (r.insertions ++ [(i, seq)]).length ≤ r.crossings + 1
        rw [length_append, hlen]
        exact le_rfl
      · cases hopen.returned.symm.trans hret
      · exact fun _ => append_ne_nil_of_right_ne_nil _ (cons_ne_nil _ _)
  | inserted =>
    cases choice with
    | true => exact h
    | false =>
      refine { h with length := Nat.le_succ_of_le h.length, returned := fun hret => ?_ }
      cases hopen.returned.symm.trans hret
  | release done =>
    cases done with
    | false => exact h
    | true =>
      exact { h with returned := fun _ => hopen.length }
  | _ => exact h

theorem OpenRecord.next (hopen : OpenRecord g.seqNr i pc r) (h : RecordOk clock g.table g.seqNr r)
    (hsealed : Sealed g) (hput : putStep t slot choice g key value i pc = (g', i', pc'))
    {q : PutPc} (hq : pc' = some q) : OpenRecord g'.seqNr i' q (r.next choice i pc) := by
  subst hq
  have hlen := hopen.length
  cases pc with
  | start | refused | flushEpoch | flushFreeze | flushSwap | flushBump | flushUnlock =>
    cases hput
    exact .of_not_writing rfl hopen.returned hlen
  | reload =>
    cases hput
    exact .of_not_writing rfl hopen.returned hlen
  | announced =>
    cases hfrozen : (g.tables i).frozen with
    | true =>
      rw [putStep, hfrozen] at hput
      cases hput
      exact .of_not_writing rfl hopen.returned hlen
    | false =>
      -- a table that admits a writer is the current one or newer
      rw [putStep, hfrozen] at hput
      cases hput
      refine ⟨hopen.returned, hlen, fun _ => ?_, fun _ hseq => by cases hseq⟩
      exact h.startTable.trans (hsealed.le_of_not_frozen hfrozen)
  | admitted =>
    cases choice with
    | false =>
      cases hput
      exact .of_not_writing rfl hopen.returned hlen
    | true =>
      cases hput
      refine ⟨hopen.returned, hlen, fun _ => hopen.table (.inl rfl), fun seq hseq => ?_⟩
      cases hseq
      exact ⟨h.startSeq, Nat.lt_succ_self _⟩
  | drawn seq =>
    cases choice with
    | false =>
      cases hput
      exact .of_not_writing rfl hopen.returned hlen
    | true =>
      cases hput
      refine .of_not_writing rfl hopen.returned ?_
      show (r.insertions ++ [(i, seq)]).length = r.crossings + 1
      rw [length_append, hlen]
      rfl
  | inserted =>
    cases choice with
    | true =>
      cases hput
      exact .of_not_writing rfl hopen.returned hlen
    | false =>
      cases hput
      exact .of_not_writing rfl hopen.returned hlen
  | flushLock =>
    rw [putStep] at hput
    split at hput <;> cases hput <;> exact .of_not_writing rfl hopen.returned hlen
  | flushGuard =>
    rw [putStep] at hput
    split_ifs at hput <;> cases hput <;> exact .of_not_writing rfl hopen.returned hlen
  | release done =>
    cases done with
    | false =>
      cases hput
      exact .of_not_writing rfl hopen.returned hlen
    | true => cases hput

/-- The record of a call keeps its start, and its insertions grow at the end. -/
structure PutRecord.Extends (r r' : PutRecord) : Prop where
  startedAt : r'.startedAt = r.startedAt
  startTable : r'.startTable = r.startTable
  startSeq : r'.startSeq = r.startSeq
  observedAt : r'.observedAt = r.observedAt
  insertions : r.insertions <+: r'.insertions

theorem PutRecord.next_extends (choice : Bool) (i : ℕ) (r : PutRecord) (pc : PutPc) :
    r.Extends (r.next choice i pc) := by
  cases pc with
  | drawn seq => cases choice <;> exact ⟨rfl, rfl, rfl, rfl, by simp [PutRecord.next]⟩
  | inserted => cases choice <;> exact ⟨rfl, rfl, rfl, rfl, prefix_rfl⟩
  | release done => cases done <;> exact ⟨rfl, rfl, rfl, rfl, prefix_rfl⟩
  | _ => exact ⟨rfl, rfl, rfl, rfl, prefix_rfl⟩

theorem Precedes.extends {p p' q q' : PutRecord} (h : Precedes p q)
    (hobserved : p.observedAt ≠ none → p.insertions ≠ []) (hp : p.Extends p') (hq : q.Extends q') :
    Precedes p' q' := by
  intro τ hτ hle x hx
  rw [hp.observedAt] at hτ
  rw [hq.startedAt] at hle
  rw [hq.startTable, hq.startSeq]
  refine h τ hτ hle x ?_
  -- an observed call has an insertion, and the first one stays
  obtain ⟨rest, hrest⟩ := hp.insertions
  rwa [← hrest, head?_append_of_ne_nil _ (hobserved fun hnone => by
    rw [hnone] at hτ
    cases hτ)] at hx

end Put

theorem PutRecord.Extends.refl (r : PutRecord) : r.Extends r :=
  ⟨rfl, rfl, rfl, rfl, prefix_rfl⟩

theorem OpenRecord.mono {seqNr' : ℕ} (h : OpenRecord seqNr i pc r) (hseq : seqNr ≤ seqNr') :
    OpenRecord seqNr' i pc r :=
  ⟨h.returned, h.length, h.table, fun seq hpc => ⟨(h.drawn seq hpc).1, (h.drawn seq hpc).2.trans_le hseq⟩⟩

theorem PutRecord.found_cases (clock seq : ℕ) (r : PutRecord) :
    r.found clock seq = r ∨
      r.insertions ≠ [] ∧ r.found clock seq = { r with observedAt := some clock } := by
  rw [PutRecord.found]
  split
  · next h =>
    refine .inr ⟨fun hnil => ?_, rfl⟩
    rw [hnil] at h
    cases h.1
  · exact .inl rfl

section Step

variable {s s' : State (Fin n) (SharedState n K) (ThreadState K)} {L : PutLog n} {m : ℕ}

theorem PutLogOk.lt_count (h : PutLogOk s L) (hr : L.records m = some r) : m < L.count := by
  by_contra hle
  rw [h.fresh m (Nat.le_of_not_lt hle)] at hr
  cases hr

theorem record_of_observe {o : Option ℕ} {r' : PutRecord}
    (hr' : (L.observe o).records m = some r') :
    ∃ r, L.records m = some r ∧
      (r' = r ∨ r.insertions ≠ [] ∧ r' = { r with observedAt := some L.clock }) := by
  cases o with
  | none => exact ⟨r', hr', .inl rfl⟩
  | some seq =>
    obtain ⟨r, hr, rfl⟩ := Option.map_eq_some_iff.mp hr'
    exact ⟨r, hr, PutRecord.found_cases L.clock seq r⟩

theorem observe_of_record (L : PutLog n) (o : Option ℕ) (hr : L.records m = some r) :
    ∃ observedAt, (L.observe o).records m = some { r with observedAt } := by
  cases o with
  | none => exact ⟨r.observedAt, hr⟩
  | some seq =>
    have hmap : (L.observe (some seq)).records m = some (r.found L.clock seq) := by
      show (L.records m).map _ = _
      rw [hr, Option.map_some]
    rcases PutRecord.found_cases L.clock seq r with hf | ⟨-, hf⟩
    · exact ⟨r.observedAt, by rw [hmap, hf]⟩
    · exact ⟨some L.clock, by rw [hmap, hf]⟩

theorem PutLogOk.observe (h : PutLogOk s L) (hthreads : Holds Sealed ThreadOk s')
    (htable : s.shared.table ≤ s'.shared.table) (hseq : s.shared.seqNr ≤ s'.shared.seqNr)
    (hcalls : ∀ t key value i pc, (s'.threads t).call = .put key value i pc →
      (s.threads t).call = .put key value i pc) (o : Option ℕ) :
    PutLogOk s' (L.observe o).tick := by
  have hcount : (L.observe o).count = L.count := by cases o <;> rfl
  have hcurrent : (L.observe o).current = L.current := by cases o <;> rfl
  have hclock : (L.observe o).clock = L.clock := by cases o <;> rfl
  refine ⟨hthreads, fun m hm => ?_, fun m r' hr' => ?_, fun m m' p' q' hp' hq' => ?_,
    fun t key value i pc hcall => ?_, fun t u ht hu htu => ?_⟩
  · cases hrec : (L.observe o).records m with
    | none => exact hrec
    | some r' =>
      obtain ⟨r, hr, -⟩ := record_of_observe hrec
      exact absurd (h.lt_count hr) (Nat.not_lt_of_le (hcount ▸ hm))
  · obtain ⟨r, hr, hcase⟩ := record_of_observe hr'
    have hok : RecordOk (L.observe o).tick.clock s'.shared.table s'.shared.seqNr r :=
      (h.records m r hr).mono (by rw [PutLog.tick, hclock]; exact Nat.le_succ _) htable hseq
    rcases hcase with rfl | ⟨hne, rfl⟩
    · exact hok
    · exact { hok with observed := fun _ => hne }
  · obtain ⟨p, hp, hpcase⟩ := record_of_observe hp'
    obtain ⟨q, hq, hqcase⟩ := record_of_observe hq'
    have hstart : q'.startedAt = q.startedAt ∧ q'.startTable = q.startTable ∧
        q'.startSeq = q.startSeq := by
      rcases hqcase with rfl | ⟨-, rfl⟩ <;> exact ⟨rfl, rfl, rfl⟩
    intro τ hτ hle x hx
    rw [hstart.1] at hle
    rw [hstart.2.1, hstart.2.2]
    rcases hpcase with rfl | ⟨-, rfl⟩
    · exact h.precedes m m' p' q hp hq τ hτ hle x hx
    · -- whatever is on record has started before the find
      obtain rfl := Option.some_inj.mp hτ
      exact absurd (h.records m' q hq).started (Nat.not_lt_of_le hle)
  · obtain ⟨r, hr, hopen⟩ := h.calls t key value i pc (hcalls t key value i pc hcall)
    obtain ⟨observedAt, hr'⟩ := observe_of_record L o hr
    refine ⟨{ r with observedAt }, ?_, ?_⟩
    · show (L.observe o).records ((L.observe o).current t) = _
      rw [hcurrent, hr']
    · have hmono := hopen.mono hseq
      exact ⟨hmono.returned, hmono.length, hmono.table, hmono.drawn⟩
  · have hput : ∀ v, (s'.threads v).call.isPut = true → (s.threads v).call.isPut = true := by
      intro v hv
      cases hcall : (s'.threads v).call with
      | put key value i pc =>
        rw [hcalls v key value i pc hcall]
        rfl
      | _ =>
        rw [hcall] at hv
        cases hv
    show (L.observe o).current t ≠ (L.observe o).current u
    rw [hcurrent]
    exact h.distinct t u (hput t ht) (hput u hu) htu

theorem PutLogOk.begin (h : PutLogOk s L) {t : Fin n} {l : ThreadState K} {key : K}
    {value : Bytes} (hl : l.call = .put key value i .start)
    (hthreads : Holds Sealed ThreadOk ⟨s.shared, update s.threads t l⟩) :
    PutLogOk ⟨s.shared, update s.threads t l⟩ (L.begin t s.shared).tick := by
  -- the records of the other calls are where they were
  have hold : ∀ {m r}, L.records m = some r → (L.begin t s.shared).records m = some r :=
    fun hr => (update_of_ne (h.lt_count hr).ne _ _).trans hr
  have hnew : (L.begin t s.shared).records L.count =
      some ⟨L.clock, s.shared.table, s.shared.seqNr, [], 0, false, none⟩ :=
    update_self _ _ _
  have hcases : ∀ m r, (L.begin t s.shared).records m = some r →
      r = ⟨L.clock, s.shared.table, s.shared.seqNr, [], 0, false, none⟩ ∨ L.records m = some r := by
    intro m r hr
    by_cases hm : m = L.count
    · rw [hm, hnew] at hr
      exact .inl (Option.some_inj.mp hr).symm
    · exact .inr ((update_of_ne hm _ _).symm.trans hr)
  refine ⟨hthreads, fun m hm => ?_, fun m r hr => ?_, fun m m' p q hp hq => ?_,
    fun u key' value' j pc hcall => ?_, fun u v hu hv huv => ?_⟩
  · have hm' : L.count + 1 ≤ m := hm
    exact (update_of_ne (Nat.ne_of_gt hm') _ _).trans (h.fresh m (Nat.le_of_succ_le hm'))
  · rcases hcases m r hr with rfl | hr'
    · exact ⟨Nat.lt_succ_self _, le_rfl, le_rfl, nofun, Nat.zero_le _, nofun, fun hne => absurd rfl hne⟩
    · exact (h.records m r hr').mono (Nat.le_succ _) le_rfl le_rfl
  · rcases hcases m p hp with rfl | hp'
    · exact fun τ hτ => by cases hτ
    · rcases hcases m' q hq with rfl | hq'
      · intro τ _ _ x hx
        obtain ⟨-, htable, -, hseq⟩ := (h.records m p hp').insertions x (mem_of_mem_head? hx)
        exact ⟨htable, hseq⟩
      · exact h.precedes m m' p q hp' hq'
  · change (update s.threads t l u).call = _ at hcall
    by_cases hu : u = t
    · subst hu
      rw [update_self, hl] at hcall
      cases hcall
      refine ⟨⟨L.clock, s.shared.table, s.shared.seqNr, [], 0, false, none⟩, ?_, rfl, rfl, nofun,
        nofun⟩
      show (L.begin u s.shared).records (update L.current u L.count u) = _
      rw [update_self, hnew]
    · rw [update_of_ne hu] at hcall
      obtain ⟨r, hr, hopen⟩ := h.calls u key' value' j pc hcall
      refine ⟨r, ?_, hopen⟩
      show (L.begin t s.shared).records (update L.current t L.count u) = _
      rw [update_of_ne hu, hold hr]
  · change (update s.threads t l u).call.isPut = true at hu
    change (update s.threads t l v).call.isPut = true at hv
    show update L.current t L.count u ≠ update L.current t L.count v
    have hlt : ∀ x, (s.threads x).call.isPut = true → L.current x < L.count := by
      intro x hx
      cases hcall : (s.threads x).call with
      | put key' value' j pc =>
        obtain ⟨r, hr, -⟩ := h.calls x key' value' j pc hcall
        exact h.lt_count hr
      | _ =>
        rw [hcall] at hx
        cases hx
    by_cases hut : u = t
    · have hvt : v ≠ t := fun hvt => huv (hut.trans hvt.symm)
      rw [update_of_ne hvt] at hv
      rw [hut, update_self, update_of_ne hvt]
      exact (hlt v hv).ne'
    · rw [update_of_ne hut] at hu
      rw [update_of_ne hut]
      by_cases hvt : v = t
      · rw [hvt, update_self]
        exact (hlt u hu).ne
      · rw [update_of_ne hvt] at hv
        rw [update_of_ne hvt]
        exact h.distinct u v hu hv huv

theorem PutLogOk.put (h : PutLogOk s L) {t : Fin n} {g : SharedState n K} {l : ThreadState K}
    {choice : Bool} {slot : ℕ} {key : K} {value : Bytes} {i' : ℕ} {pc' : Option PutPc}
    (hcall : (s.threads t).call = .put key value i pc)
    (hput : putStep t slot choice s.shared key value i pc = (g, i', pc'))
    (hl : l.call = .afterPut key value i' pc')
    (hthreads : Holds Sealed ThreadOk ⟨g, update s.threads t l⟩) :
    PutLogOk ⟨g, update s.threads t l⟩
      (L.modify (L.current t) fun r => r.next choice i pc).tick := by
  obtain ⟨r, hr, hopen⟩ := h.calls t key value i pc hcall
  have hok := h.records _ r hr
  have hputOk := (h.threads.threads t).put key value i pc hcall
  have htable : s.shared.table ≤ g.table := (putStep_grows hput).table
  have hseq := putStep_seqNr_le hput
  set L' := L.modify (L.current t) fun r => r.next choice i pc with hL'
  have hself : L'.records (L.current t) = some (r.next choice i pc) := by
    show update L.records (L.current t) ((L.records (L.current t)).map _) (L.current t) = _
    rw [update_self, hr, Option.map_some]
  have hother : ∀ {m}, m ≠ L.current t → L'.records m = L.records m :=
    fun hm => update_of_ne hm _ _
  have hback : ∀ m p', L'.records m = some p' → ∃ p, L.records m = some p ∧ p.Extends p' := by
    intro m p' hp'
    by_cases hm : m = L.current t
    · rw [hm, hself] at hp'
      obtain rfl := Option.some_inj.mp hp'
      exact ⟨r, hm ▸ hr, r.next_extends choice i pc⟩
    · exact ⟨p', hother hm ▸ hp', PutRecord.Extends.refl p'⟩
  have hwas : ∀ u, (update s.threads t l u).call.isPut = true →
      (s.threads u).call.isPut = true := by
    intro u hu
    by_cases hut : u = t
    · rw [hut, hcall]
      rfl
    · rwa [update_of_ne hut] at hu
  refine ⟨hthreads, fun m hm => ?_, fun m p hp => ?_, fun m m' p' q' hp' hq' => ?_,
    fun u key' value' j q hq => ?_, fun u v hu hv huv => h.distinct u v (hwas u hu) (hwas v hv) huv⟩
  · have hne : m ≠ L.current t := (lt_of_lt_of_le (h.lt_count hr) hm).ne'
    exact (hother hne).trans (h.fresh m hm)
  · refine RecordOk.mono ?_ (Nat.le_succ L.clock) htable hseq
    by_cases hm : m = L.current t
    · change L'.records m = some p at hp
      rw [hm, hself] at hp
      obtain rfl := Option.some_inj.mp hp
      exact hok.next hopen hputOk choice
    · exact h.records m p ((hother hm).symm.trans hp)
  · obtain ⟨p, hp, hpp⟩ := hback m p' hp'
    obtain ⟨q, hq, hqq⟩ := hback m' q' hq'
    exact (h.precedes m m' p q hp hq).extends (h.records m p hp).observed hpp hqq
  · change (update s.threads t l u).call = _ at hq
    by_cases hut : u = t
    · subst hut
      rw [update_self, hl] at hq
      rcases hpc' : pc' with - | q'
      · rw [hpc'] at hq
        cases hq
      · rw [hpc'] at hq
        cases hq
        exact ⟨_, hself, hopen.next hok h.threads.shared hput hpc'⟩
    · rw [update_of_ne hut] at hq
      obtain ⟨r', hr', hopen'⟩ := h.calls u key' value' j q hq
      have hne : L.current u ≠ L.current t :=
        h.distinct u t (by rw [hq]; rfl) (by rw [hcall]; rfl) hut
      exact ⟨r', (hother hne).trans hr', hopen'.mono hseq⟩

end Step

/-! ### Runs -/

theorem PutLogOk.start : PutLogOk (newMemtable n K) ({} : PutLog n) :=
  ⟨newMemtable_ok, fun _ _ => rfl, nofun, nofun, nofun, nofun⟩

theorem PutLogOk.step {s s' : State (Fin n) (SharedState n K) (ThreadState K)}
    {L : PutLog n} (h : PutLogOk s L) {a : Label (Fin n) (ThreadAct K) FlushAct}
    (hstep : (memtable n w K).step s a = some s') : PutLogOk s' (notePut s a L) := by
  have hthreads := memtable_step_ok h.threads hstep
  cases a with
  | background b =>
    obtain ⟨g, hact, rfl⟩ := step_background hstep
    have hsame : g.table = s.shared.table ∧ g.seqNr = s.shared.seqNr := by
      rcases flushAct_cases hact with ⟨i, slot, stage, -, -, -, rfl⟩ | ⟨i, ok, -, -, rfl⟩ |
        ⟨i, entries, -, -, -, rfl⟩ <;> exact ⟨rfl, rfl⟩
    exact h.observe hthreads hsame.1.ge hsame.2.ge (fun _ _ _ _ _ hcall => hcall) none
  | thread t a =>
    obtain ⟨g, l, hact, rfl⟩ := step_thread hstep
    -- a thread that is not in a `put_async` afterwards
    have hquiet : (∀ key value i pc, l.call ≠ .put key value i pc) →
        ∀ u key value i pc, (update s.threads t l u).call = .put key value i pc →
          (s.threads u).call = .put key value i pc := by
      intro hnot u key value i pc hcall
      by_cases hu : u = t
      · rw [hu, update_self] at hcall
        exact absurd hcall (hnot key value i pc)
      · rwa [update_of_ne hu] at hcall
    rcases threadAct_cases hact with ⟨key, value, i, rfl, -, -, rfl, rfl⟩ |
      ⟨key, epoch, i, pc, rfl, -, -, rfl, rfl⟩ |
      ⟨choice, key, value, i, pc, i', pc', rfl, hcall, hput, rfl⟩ |
      ⟨choice, key, since, epoch, i, pc, epoch', i', pc', rfl, hcall, -, rfl, rfl⟩
    · exact h.begin rfl hthreads
    · exact h.observe hthreads le_rfl le_rfl (hquiet nofun) none
    · have hnote : notePut s (.thread t (.run choice)) L =
          (L.modify (L.current t) fun r => r.next choice i pc).tick := by
        rw [notePut, noteAct, hcall]
      rw [hnote]
      exact h.put hcall hput rfl hthreads
    · have hnote : notePut s (.thread t (.run choice)) L =
          (L.observe (s.shared.foundSeq key i pc)).tick := by
        rw [notePut, noteAct, hcall]
      rw [hnote]
      refine h.observe hthreads le_rfl le_rfl (hquiet fun key' value' j q hq => ?_) _
      rcases pc' with - | q' <;> cases hq

/-- **How often a `put_async` takes effect.**  A call that has returned has inserted its
entry once if and only if it never found the table over budget after an insertion.  Of a
call that never did, no entry is newer than one of a call that started after a reader had
found it: the table is no newer, and the sequence number is lower. -/
theorem put_inserts_once_iff (as : List (Label (Fin n) (ThreadAct K) FlushAct))
    (s : State (Fin n) (SharedState n K) (ThreadState K))
    (hrun : Run.exec (memtable n w K).step (newMemtable n K) as = some s) :
    (∀ m r, (putLog w as).records m = some r → r.returned = true →
        (r.insertions.length = 1 ↔ r.crossings = 0)) ∧
      ∀ m m' p q, (putLog w as).records m = some p → (putLog w as).records m' = some q →
        p.crossings = 0 → ∀ τ ∈ p.observedAt, τ ≤ q.startedAt →
          ∀ x ∈ p.insertions, ∀ y ∈ q.insertions, x.1 ≤ y.1 ∧ x.2 < y.2 := by
  have hok : PutLogOk s (putLog w as) := Run.exec_record (C := fun _ _ => True)
    (fun _ _ _ _ h _ hstep => h.step hstep) PutLogOk.start (Run.allSteps_true _ _) hrun
  refine ⟨fun m r hr hreturned => ?_, fun m m' p q hp hq hcrossings τ hτ hle x hx y hy => ?_⟩
  · have hlen := (hok.records m r hr).returned hreturned
    omega
  · -- the first insertion is the only one
    have hlen := (hok.records m p hp).length
    rw [hcrossings] at hlen
    have hhead : p.insertions.head? = some x := by
      obtain ⟨z, hz⟩ := length_eq_one_iff.mp
        (le_antisymm hlen (length_pos_of_mem hx))
      rw [hz] at hx ⊢
      rw [mem_singleton.mp hx]
      rfl
    obtain ⟨htable, hseq⟩ := hok.precedes m m' p q hp hq τ hτ hle x hhead
    obtain ⟨htable', -, hseq', -⟩ := (hok.records m' q hq).insertions y hy
    exact ⟨htable.trans htable', hseq.trans_le hseq'⟩

/-- A `get` of key 1 by thread C up to where it has read the current table. -/
def readCurrent : List (Label (Fin 3) (ThreadAct ℕ) FlushAct) :=
  [.thread threadC (.startGet 1)] ++ threadRuns threadC [true, true, true, true]

/-- Thread A writes key 1, thread C reads it, then thread B writes key 1. -/
def readBetween : List (Label (Fin 3) (ThreadAct ℕ) FlushAct) :=
  [.thread threadA (.startPut 1 [1, 10])] ++ threadRuns threadA [true, true, true, true] ++
    readCurrent ++ threadRuns threadA [true, true] ++
    [.thread threadB (.startPut 1 [1, 20])] ++ threadRuns threadB [true, true, true, true, true, true]

theorem put_inserts_once_read : ∃ s,
    Run.exec (memtable 3 3 ℕ).step (newMemtable 3 ℕ) readBetween = some s ∧
      ∃ p q, (putLog 3 readBetween).records 0 = some p ∧ (putLog 3 readBetween).records 1 = some q ∧
        p.insertions.length = 1 ∧ ∀ x ∈ p.insertions, ∀ y ∈ q.insertions, x.1 ≤ y.1 ∧ x.2 < y.2 := by
  obtain ⟨s, hrun⟩ : ∃ s,
      Run.exec (memtable 3 3 ℕ).step (newMemtable 3 ℕ) readBetween = some s := ⟨_, rfl⟩
  have hp : (putLog 3 readBetween).records 0 = some ⟨0, 0, 0, [(0, 0)], 0, true, some 9⟩ := by
    decide +kernel
  have hq : (putLog 3 readBetween).records 1 = some ⟨12, 0, 1, [(0, 1)], 0, true, none⟩ := by
    decide +kernel
  obtain ⟨honce, hlater⟩ := put_inserts_once_iff readBetween s hrun
  exact ⟨s, hrun, _, _, hp, hq, (honce 0 _ hp rfl).mpr rfl,
    hlater 0 1 _ _ hp hq rfl 9 rfl (by decide)⟩

/-- Thread A inserts key 1 and finds the table over budget; thread C has read the value
by then.  While thread A switches the table, thread B writes key 1 and returns.  Then
thread A inserts its entry once more. -/
def insertTwice : List (Label (Fin 3) (ThreadAct ℕ) FlushAct) :=
  [.thread threadA (.startPut 1 [1, 10])] ++ threadRuns threadA [true, true, true, true] ++
    readCurrent ++
    threadRuns threadA [false, true, true, true, true, true, true, true, true] ++
    [.thread threadB (.startPut 1 [1, 20])] ++
    threadRuns threadB [true, true, true, true, true, true] ++
    threadRuns threadA [true, true, true, true, true, true, true, true, true, true]

/-- The entry that a reader had found comes to lie over the later write: table 1 has the
value of thread A for key 1, though thread B started after the read and has returned. -/
theorem observed_put_overwrites :
    (∃ s, Run.exec (memtable 3 3 ℕ).step (newMemtable 3 ℕ) insertTwice = some s ∧
        s.shared.lookup 1 1 = some [1, 10] ∧ (1, [1, 20]) ∈ s.shared.returned) ∧
      ∃ p q, (putLog 3 insertTwice).records 0 = some p ∧ (putLog 3 insertTwice).records 1 = some q ∧
        p.returned = true ∧ p.insertions = [(0, 0), (1, 2)] ∧ q.insertions = [(1, 1)] ∧
        ∃ τ ∈ p.observedAt, τ ≤ q.startedAt := by
  have hp : (putLog 3 insertTwice).records 0 =
      some ⟨0, 0, 0, [(0, 0), (1, 2)], 1, true, some 9⟩ := by decide +kernel
  have hq : (putLog 3 insertTwice).records 1 = some ⟨19, 1, 1, [(1, 1)], 0, true, none⟩ := by
    decide +kernel
  have hview : (Run.exec (memtable 3 3 ℕ).step (newMemtable 3 ℕ) insertTwice).map
      (fun s => (s.shared.lookup 1 1, s.shared.returned)) =
        some (some [1, 10], [(1, [1, 20]), (1, [1, 10])]) := by decide +kernel
  obtain ⟨s, hrun, hs⟩ := Option.map_eq_some_iff.mp hview
  obtain ⟨hlookup, hreturned⟩ := Prod.mk.inj hs
  refine ⟨⟨s, hrun, hlookup, ?_⟩, _, _, hp, hq, rfl, rfl, rfl, 9, rfl, by decide⟩
  rw [hreturned]
  exact mem_cons_self

end HedgeDB
