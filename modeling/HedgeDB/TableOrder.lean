/-
HedgeDB/TableOrder.lean

Sequence numbers and the order of the tables (`put_async` and `_flush` of
`src/db/memtable.cc`).

Recovery takes a number of an older table to be smaller than every number of a
newer one.  A writer is admitted before it draws its number, and `_flush` does
not wait for admitted writers before it makes the next table current, so the
order can be lost (`late_draw_breaks_order`).  It is kept in every run in which a
number is drawn for a table only after the writers admitted to older tables have
drawn theirs (`DrawOk`, `numbers_follow_table_order`).
-/
import HedgeDB.TableSwitch

namespace HedgeDB

open Interleave SharedState List

variable {K : Type*} [LinearOrder K] {n w : ℕ}

/-- The table of a writer that is admitted and has not drawn its number. -/
def Call.admittedTo : Call K → Option ℕ
  | .put _ _ i .admitted => some i
  | _ => none

variable {i : ℕ}

omit [LinearOrder K] in
theorem Call.admittedTo_eq_some {c : Call K} (h : c.admittedTo = some i) :
    ∃ key value, c = .put key value i .admitted := by
  rcases c with - | ⟨key, value, j, pc⟩ | ⟨key, since, epoch, j, pc⟩
  · cases h
  · cases pc <;> cases h
    exact ⟨key, value, rfl⟩
  · cases h

/-- The condition on the draws: no writer of an older table still has to draw. -/
def DrawOk (s : State (Fin n) (SharedState n K) (ThreadState K)) :
    Label (Fin n) (ThreadAct K) FlushAct → Prop
  | .thread t (.run true) =>
      ∀ i ∈ (s.threads t).call.admittedTo, ∀ u, ∀ j ∈ (s.threads u).call.admittedTo, i ≤ j
  | _ => True

instance (s : State (Fin n) (SharedState n K) (ThreadState K)) :
    (a : Label (Fin n) (ThreadAct K) FlushAct) → Decidable (DrawOk s a)
  | .thread t (.run true) => inferInstanceAs (Decidable
      (∀ i ∈ (s.threads t).call.admittedTo, ∀ u, ∀ j ∈ (s.threads u).call.admittedTo, _))
  | .thread _ (.run false) | .thread _ (.startPut _ _) | .thread _ (.startGet _)
  | .background _ => isTrue trivial

/-! ### The invariant -/

/-- The numbers drawn so far respect the order of their tables, and tables hold
drawn numbers only. -/
structure Numbered (g : SharedState n K) : Prop where
  stored : ∀ i, ∀ e ∈ (g.tables i).contents.entries, (i, e.seq) ∈ g.drawn
  le : ∀ q ∈ g.drawn, q.1 ≤ g.table
  lt : ∀ q ∈ g.drawn, q.2 < g.seqNr
  order : ∀ p ∈ g.drawn, ∀ q ∈ g.drawn, p.1 < q.1 → p.2 < q.2

/-- A writer that has still to draw is on the newest table with numbers. -/
structure WriterOk (_t : Fin n) (g : SharedState n K) (l : ThreadState K) : Prop where
  admitted : ∀ i ∈ l.call.admittedTo, ∀ q ∈ g.drawn, q.1 ≤ i
  drawn : ∀ key value i seq, l.call = .put key value i (.drawn seq) → (i, seq) ∈ g.drawn

theorem newMemtable_numbered : Holds Numbered WriterOk (newMemtable n K) :=
  ⟨⟨nofun, nofun, nofun, nofun⟩, fun _ => ⟨nofun, nofun⟩⟩

section Steps

variable {g g' : SharedState n K}

theorem Numbered.of_eq (h : Numbered g) (hgrows : Grows g g')
    (hcontents : ∀ j, (g'.tables j).contents = (g.tables j).contents)
    (hdrawn : g'.drawn = g.drawn) (hseq : g'.seqNr = g.seqNr) : Numbered g' := by
  refine ⟨fun i e he => ?_, fun q hq => ?_, fun q hq => ?_, ?_⟩
  · rw [hcontents] at he
    rw [hdrawn]
    exact h.stored i e he
  · exact (h.le q (hdrawn ▸ hq)).trans hgrows.table
  · rw [hseq]
    exact h.lt q (hdrawn ▸ hq)
  · rw [hdrawn]
    exact h.order

theorem Numbered.draw (h : Numbered g) (hi : i ≤ g.table) (hlast : ∀ q ∈ g.drawn, q.1 ≤ i) :
    Numbered { g with seqNr := g.seqNr + 1, drawn := g.drawn ++ [(i, g.seqNr)] } := by
  refine ⟨fun j e he => mem_append_left _ (h.stored j e he), fun q hq => ?_, fun q hq => ?_,
    fun p hp q hq hpq => ?_⟩
  · rcases mem_append.mp hq with hq | hq
    · exact h.le q hq
    · rw [mem_singleton.mp hq]
      exact hi
  · rcases mem_append.mp hq with hq | hq
    · exact Nat.lt_succ_of_lt (h.lt q hq)
    · rw [mem_singleton.mp hq]
      exact Nat.lt_succ_self _
  · rcases mem_append.mp hp with hp | hp <;> rcases mem_append.mp hq with hq | hq
    · exact h.order p hp q hq hpq
    · rw [mem_singleton.mp hq]
      exact h.lt p hp
    · rw [mem_singleton.mp hp] at hpq
      exact absurd hpq (hlast q hq).not_gt
    · rw [mem_singleton.mp hp, mem_singleton.mp hq] at hpq
      exact absurd hpq (lt_irrefl _)

theorem Numbered.insert (h : Numbered g) {e : MemtableEntry K} (he : (i, e.seq) ∈ g.drawn) :
    Numbered (g.insert i e) := by
  refine ⟨fun j a ha => ?_, h.le, h.lt, h.order⟩
  rw [SharedState.insert, setTable_tables] at ha
  split at ha
  · next hj =>
    subst hj
    rcases Skiplist.mem_insert ha with rfl | hold
    · exact he
    · exact h.stored j a hold
  · exact h.stored j a ha

end Steps

variable {s : State (Fin n) (SharedState n K) (ThreadState K)}

theorem threadAct_numbered {t : Fin n} {a : ThreadAct K} {g : SharedState n K} {l : ThreadState K}
    (hbase : Holds Sealed ThreadOk s) (hs : Holds Numbered WriterOk s)
    (hdraw : DrawOk s (.thread t a)) (h : threadAct w t a s.shared (s.threads t) = some (g, l)) :
    Numbered g ∧ WriterOk t g l ∧ ∀ u, u ≠ t → WriterOk u g (s.threads u) := by
  have hgrows := threadAct_grows h
  rcases threadAct_cases h with ⟨key, value, i, -, -, -, rfl, rfl⟩ |
    ⟨key, epoch, i, pc, -, -, -, rfl, rfl⟩ |
    ⟨choice, key, value, i, pc, i', pc', rfl, hcall, hput, rfl⟩ |
    ⟨choice, key, since, epoch, i, pc, epoch', i', pc', -, -, -, rfl, rfl⟩
  · exact ⟨hs.shared, ⟨nofun, nofun⟩, fun u _ => hs.threads u⟩
  · exact ⟨hs.shared, ⟨nofun, nofun⟩, fun u _ => hs.threads u⟩
  · have hok := (hbase.threads t).put key value i pc hcall
    rcases putStep_write hput with ⟨rfl, rfl, rfl, rfl, rfl⟩ | ⟨seq, rfl, rfl, rfl, rfl⟩ |
      ⟨hcontents, hdrawn, hseq, hnodraw, -, hadmit⟩
    · have hto : (s.threads t).call.admittedTo = some i' := by rw [hcall]; rfl
      refine ⟨hs.shared.draw hok.le ((hs.threads t).admitted i' hto), ⟨nofun, ?_⟩, ?_⟩
      · intro key' value' j seq hj
        cases hj
        exact mem_append_right _ (mem_singleton_self _)
      · intro u _
        refine ⟨fun j hj q hq => ?_, fun key' value' j seq hj =>
          mem_append_left _ ((hs.threads u).drawn key' value' j seq hj)⟩
        rcases mem_append.mp hq with hq | hq
        · exact (hs.threads u).admitted j hj q hq
        · rw [mem_singleton.mp hq]
          exact hdraw i' hto u j hj
    · have hin := (hs.threads t).drawn key value i' seq hcall
      exact ⟨hs.shared.insert hin, ⟨nofun, nofun⟩, fun u _ => ⟨(hs.threads u).admitted,
        (hs.threads u).drawn⟩⟩
    · refine ⟨hs.shared.of_eq hgrows hcontents hdrawn hseq, ⟨?_, ?_⟩, ?_⟩
      · -- a new writer is on a table that is not frozen, hence on the current one
        intro j hj q hq
        rcases pc' with - | pc'
        · cases hj
        · obtain ⟨_, _, hput'⟩ := Call.admittedTo_eq_some hj
          cases hput'
          obtain ⟨rfl, hfrozen⟩ := hadmit rfl
          exact (hs.shared.le q (hdrawn ▸ hq)).trans (hbase.shared.le_of_not_frozen hfrozen)
      · intro key' value' j seq hj
        rcases pc' with - | pc'
        · cases hj
        · cases hj
          exact absurd rfl (hnodraw seq)
      · intro u _
        refine ⟨?_, ?_⟩
        · rw [hdrawn]
          exact (hs.threads u).admitted
        · rw [hdrawn]
          exact (hs.threads u).drawn
  · refine ⟨hs.shared, ⟨?_, ?_⟩, fun u _ => hs.threads u⟩
    · rcases pc' with - | pc' <;> nofun
    · rcases pc' with - | pc' <;> nofun

theorem flushAct_numbered {b : FlushAct} {g : SharedState n K}
    (hs : Holds Numbered WriterOk s) (h : flushAct w b s.shared = some g) :
    Numbered g ∧ ∀ u, WriterOk u g (s.threads u) := by
  have hgrows := flushAct_grows h
  rcases flushAct_cases h with ⟨i, slot, stage, -, -, -, rfl⟩ | ⟨i, ok, -, -, rfl⟩ |
    ⟨i, entries, -, -, -, rfl⟩ <;>
  exact ⟨hs.shared.of_eq hgrows (fun _ => rfl) rfl rfl, fun u =>
    ⟨(hs.threads u).admitted, (hs.threads u).drawn⟩⟩

/-- **Numbers follow the order of the tables**, in every state of every run whose
draws meet the condition. -/
theorem numbers_follow_table_order
    {as : List (Label (Fin n) (ThreadAct K) FlushAct)}
    {s : State (Fin n) (SharedState n K) (ThreadState K)}
    (hall : Run.AllSteps (memtable n w K).step DrawOk (newMemtable n K) as)
    (hrun : Run.exec (memtable n w K).step (newMemtable n K) as = some s)
    {i j : ℕ} (hij : i < j) {a b : MemtableEntry K}
    (ha : a ∈ (s.shared.tables i).contents.entries)
    (hb : b ∈ (s.shared.tables j).contents.entries) : a.seq < b.seq := by
  have hbase := hall.and_invariant (I := Holds Sealed ThreadOk)
    (fun _ _ _ hs _ hst => memtable_step_ok hs hst) newMemtable_ok
  have hnum : Holds Numbered WriterOk s := by
    refine exec_holds ?_ ?_ newMemtable_numbered hbase hrun
    · intro s t a g l hs hc hact
      exact threadAct_numbered hc.1 hs hc.2 hact
    · intro s b g hs _ hbackground
      exact flushAct_numbered hs hbackground
  exact hnum.shared.order _ (hnum.shared.stored i a ha) _ (hnum.shared.stored j b hb) hij

/-- Thread B fills table 0 and switches; thread C then writes to table 1. -/
def drawsInOrder : List (Label (Fin 3) (ThreadAct ℕ) FlushAct) :=
  fillAndSwitch 2 ++ [.thread threadC (.startPut 3 [1, 30])] ++ threadRuns threadC [true, true, true, true]

theorem numbers_follow_table_order_example :
    Run.AllSteps (memtable 3 3 ℕ).step DrawOk (newMemtable 3 ℕ) drawsInOrder ∧
      ∃ s, Run.exec (memtable 3 3 ℕ).step (newMemtable 3 ℕ) drawsInOrder = some s ∧
        ∃ a ∈ (s.shared.tables 0).contents.entries, ∃ b ∈ (s.shared.tables 1).contents.entries,
          a.seq < b.seq := by
  have hall : Run.AllSteps (memtable 3 3 ℕ).step DrawOk (newMemtable 3 ℕ) drawsInOrder := by
    decide
  refine ⟨hall, _, rfl, ⟨2, 0, [1, 20]⟩, mem_singleton_self _, ⟨3, 1, [1, 30]⟩,
    mem_singleton_self _, ?_⟩
  exact numbers_follow_table_order hall rfl Nat.zero_lt_one (mem_singleton_self _)
    (mem_singleton_self _)

/-- Thread A is admitted to table 0, thread B switches to table 1, thread C draws
number 1 for table 1, and only then does thread A draw its number, 2. -/
def lateDraw : List (Label (Fin 3) (ThreadAct ℕ) FlushAct) :=
  [.thread threadA (.startPut 1 [1, 10])] ++ threadRuns threadA [true, true] ++ drawsInOrder ++
    threadRuns threadA [true, true]

theorem late_draw_breaks_order :
    ∃ s, Run.exec (memtable 3 3 ℕ).step (newMemtable 3 ℕ) lateDraw = some s ∧
      ∃ a ∈ (s.shared.tables 0).contents.entries, ∃ b ∈ (s.shared.tables 1).contents.entries,
        ¬ a.seq < b.seq := by
  refine ⟨_, rfl, ⟨1, 2, [1, 10]⟩, mem_cons_self, ⟨3, 1, [1, 30]⟩,
    mem_singleton_self _, by decide⟩

end HedgeDB
