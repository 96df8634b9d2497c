/-
HedgeDB/TableFlush.lean

From a full table to the SSTs (`_flush` and `_flush_inner` in
`src/db/memtable.cc`).

A table that is no longer current is pending until it is published, in the order
of the tables (`FlushOk.pending`).  What is written to the SSTs is the whole table
if its writers are done by then: an admitted writer then only ever inserts into a
table that is open (`AdmittedOk`), so a table that is on its way to the SSTs, or
there, does not change any more.
-/
import HedgeDB.TableSwitch

namespace HedgeDB

open Interleave SharedState List Function

variable {K : Type*} [LinearOrder K] {n w : ℕ}

/-- The table an admitted writer may still insert into. -/
def Call.writesTo : Call K → Option ℕ
  | .put _ _ i .admitted => some i
  | .put _ _ i (.drawn _) => some i
  | _ => none

/-- Table `i` is still open to its writers: nothing of it is on its way to the
SSTs. -/
structure SharedState.Open (g : SharedState n K) (i : ℕ) : Prop where
  written : ∀ entries, g.stages i ≠ .written entries
  ssts : g.ssts.length ≤ i

/-- No admitted writer of table `i` has still to insert. -/
def WritersDone (s : State (Fin n) (SharedState n K) (ThreadState K)) (i : ℕ) : Prop :=
  ∀ u, ∀ j ∈ (s.threads u).call.writesTo, j ≠ i

instance (s : State (Fin n) (SharedState n K) (ThreadState K)) (i : ℕ) :
    Decidable (WritersDone s i) :=
  inferInstanceAs (Decidable (∀ u, ∀ j ∈ (s.threads u).call.writesTo, j ≠ i))

/-- How far the tables have come. -/
structure FlushOk (g : SharedState n K) : Prop where
  ssts_le : g.ssts.length ≤ g.table
  pending : g.pendingFlushes.map Prod.snd = range' g.ssts.length (g.table - g.ssts.length)
  staged : ∀ i, g.stages i ≠ .waiting → i < g.table
  written : ∀ i entries, g.stages i = .written entries → entries = (g.tables i).contents.entries
  published : ∀ i entries, g.ssts[i]? = some entries → entries = (g.tables i).contents.entries

/-- Where a writer may be. -/
structure AdmittedOk (_t : Fin n) (g : SharedState n K) (l : ThreadState K) : Prop where
  writer : ∀ i ∈ l.call.writesTo, g.Open i
  flushed : ∀ key value i pc j, l.call = .put key value i pc →
    pc = .flushBump j ∨ pc = .flushUnlock j → j < g.table

/-! ### Writing -/

variable {l : ThreadState K} {j : ℕ}

section Writing

variable {g g' : SharedState n K} {t : Fin n} {slot : ℕ} {choice : Bool} {key : K}
  {value : Bytes} {i i' : ℕ} {pc : PutPc} {pc' : Option PutPc}

theorem putStep_contents (h : putStep t slot choice g key value i pc = (g', i', pc')) :
    (∀ j, (g'.tables j).contents = (g.tables j).contents) ∨
      ∃ seq, pc = .drawn seq ∧ g' = g.insert i ⟨key, seq, value⟩ := by
  rcases putStep_write h with ⟨-, -, -, -, rfl⟩ | ⟨seq, rfl, -, -, hg⟩ | ⟨hcontents, -⟩
  · exact .inl fun _ => rfl
  · exact .inr ⟨seq, rfl, hg⟩
  · exact .inl hcontents

theorem insert_contents_of_ne {e : MemtableEntry K} (hj : j ≠ i) :
    ((g.insert i e).tables j).contents = (g.tables j).contents := by
  rw [SharedState.insert, setTable_tables, if_neg hj]

theorem insert_contents_self {e : MemtableEntry K} :
    ((g.insert i e).tables i).contents = (g.tables i).contents.insert e := by
  rw [SharedState.insert, setTable_tables, if_pos rfl]

theorem putStep_closed (hopen : ∀ seq, pc = .drawn seq → g.Open i)
    (h : putStep t slot choice g key value i pc = (g', i', pc')) (hj : ¬ g.Open j) :
    (g'.tables j).contents = (g.tables j).contents := by
  rcases putStep_contents h with hsame | ⟨seq, rfl, rfl⟩
  · exact hsame j
  · apply insert_contents_of_ne
    rintro rfl
    exact hj (hopen seq rfl)

theorem putStep_open (h : putStep t slot choice g key value i pc = (g', i', pc')) (hj : g.Open j) :
    g'.Open j := by
  obtain ⟨hssts, hflush⟩ := putStep_flush h
  refine ⟨fun entries => ?_, hssts ▸ hj.ssts⟩
  rcases hflush with ⟨_, -, -, -, hstages, -⟩ | ⟨j', -, -, -, -, hstages⟩ | ⟨-, -, hstages, -⟩
  · rw [hstages]
    exact hj.written entries
  · rw [hstages, update_apply]
    split
    · nofun
    · exact hj.written entries
  · rw [hstages]
    exact hj.written entries

theorem putStep_pending (h : FlushOk g)
    (hput : putStep t slot choice g key value i pc = (g', i', pc')) :
    g'.pendingFlushes.map Prod.snd =
      range' g'.ssts.length (g'.table - g'.ssts.length) := by
  obtain ⟨hssts, hflush⟩ := putStep_flush hput
  rw [hssts]
  rcases hflush with ⟨_, -, -, htable, -, hpending⟩ | ⟨_, -, -, htable, hpending, -⟩ |
    ⟨htable, hpending, -⟩
  · have hlen : g.table + 1 - g.ssts.length = g.table - g.ssts.length + 1 := by
      have := h.ssts_le
      omega
    have hlast : g.ssts.length + (g.table - g.ssts.length) = g.table :=
      Nat.add_sub_cancel' h.ssts_le
    rw [hpending, htable, map_append, h.pending, hlen, range'_concat]
    simp [hlast]
  · rw [hpending, htable, h.pending]
  · rw [hpending, htable, h.pending]

theorem putStep_staged (h : FlushOk g) (hflushed : ∀ j, pc = .flushUnlock j → j < g.table)
    (hput : putStep t slot choice g key value i pc = (g', i', pc')) (hj : g'.stages j ≠ .waiting) :
    j < g'.table := by
  rcases (putStep_flush hput).2 with ⟨_, -, -, htable, hstages, -⟩ |
    ⟨j', hpc, -, htable, -, hstages⟩ | ⟨htable, -, hstages, -⟩
  · rw [htable]
    exact Nat.lt_succ_of_lt (h.staged j (hstages ▸ hj))
  · rw [htable]
    by_cases hjj : j = j'
    · exact hjj ▸ hflushed j' hpc
    · rw [hstages, update_of_ne hjj] at hj
      exact h.staged j hj
  · rw [htable]
    exact h.staged j (hstages ▸ hj)

theorem putStep_written (hput : putStep t slot choice g key value i pc = (g', i', pc'))
    {entries : List (MemtableEntry K)} (hj : g'.stages j = .written entries) :
    g.stages j = .written entries := by
  rcases (putStep_flush hput).2 with ⟨_, -, -, -, hstages, -⟩ | ⟨j', -, -, -, -, hstages⟩ |
    ⟨-, -, hstages, -⟩
  · exact hstages ▸ hj
  · rw [hstages, update_apply] at hj
    split at hj
    · cases hj
    · exact hj
  · exact hstages ▸ hj

theorem putStep_published (hopen : ∀ seq, pc = .drawn seq → g.Open i)
    (hput : putStep t slot choice g key value i pc = (g', i', pc')) (hj : j < g.ssts.length) :
    (g'.tables j).contents = (g.tables j).contents :=
  putStep_closed hopen hput fun hjopen => hjopen.ssts.not_gt hj

theorem FlushOk.put (h : FlushOk g) (hopen : ∀ seq, pc = .drawn seq → g.Open i)
    (hflushed : ∀ j, pc = .flushUnlock j → j < g.table)
    (hput : putStep t slot choice g key value i pc = (g', i', pc')) : FlushOk g' := by
  have hssts := (putStep_flush hput).1
  refine ⟨?_, putStep_pending h hput, fun j hj => putStep_staged h hflushed hput hj,
    fun j entries hj => ?_, fun j entries hj => ?_⟩
  · rw [hssts]
    exact h.ssts_le.trans (putStep_grows hput).table
  · have hj' := putStep_written hput hj
    rw [putStep_closed hopen hput fun hjopen => hjopen.written entries hj']
    exact h.written j entries hj'
  · rw [hssts] at hj
    rw [putStep_published hopen hput (List.getElem?_eq_some_iff.mp hj).1]
    exact h.published j entries hj

theorem AdmittedOk.others {u : Fin n} (h : AdmittedOk u g l) (hgrows : Grows g g')
    (hopen : ∀ i ∈ l.call.writesTo, g.Open i → g'.Open i) :
    AdmittedOk u g' l where
  writer i hi := hopen i hi (h.writer i hi)
  flushed key value i pc j hcall hpc :=
    (h.flushed key value i pc j hcall hpc).trans_le hgrows.table

section Moved

variable {l : ThreadState K} (h : AdmittedOk t g l) (hcall : l.call = .put key value i pc)
  {q : PutPc} (hput : putStep t slot choice g key value i pc = (g', i', some q))

include h hcall hput

theorem AdmittedOk.put_writer (hflush : FlushOk g) (hsealed : Sealed g) {j : ℕ}
    (hj : (Call.put key value i' q).writesTo = some j) : g'.Open j := by
  apply putStep_open hput
  rcases putStep_write hput with ⟨-, rfl, rfl, hq, -⟩ | ⟨seq, -, rfl, hq, -⟩ |
    ⟨-, -, -, hnodraw, -, hadmit⟩
  · cases hq
    cases hj
    exact h.writer i' (by rw [hcall]; rfl)
  · cases hq
    cases hj
  · obtain ⟨rfl, rfl⟩ : q = .admitted ∧ i' = j := by
      cases q with
      | admitted => exact ⟨rfl, Option.some.inj hj⟩
      | drawn seq => exact absurd rfl (hnodraw seq)
      | _ => cases hj
    obtain ⟨rfl, hfrozen⟩ := hadmit rfl
    have hcur := hsealed.le_of_not_frozen hfrozen
    refine ⟨fun entries hw => ?_, hflush.ssts_le.trans hcur⟩
    exact absurd (hflush.staged i' (by rw [hw]; nofun)) hcur.not_gt

theorem AdmittedOk.put_flushed (hq : q = .flushBump j ∨ q = .flushUnlock j) : j < g'.table := by
  rcases (putStep_flush hput).2 with ⟨_, -, hnext, htable, -⟩ | ⟨_, -, hnext, -⟩ |
    ⟨-, -, -, hnobump, hunlock⟩
  · cases hnext
    rcases hq with hq | hq <;> cases hq
    rw [htable]
    exact Nat.lt_succ_self _
  · cases hnext
    rcases hq with hq | hq <;> cases hq
  · rcases hq with rfl | rfl
    · exact absurd rfl (hnobump j)
    · have hpc := hunlock j rfl
      exact (h.flushed key value i pc j hcall (.inl hpc)).trans_le (putStep_grows hput).table

end Moved

theorem AdmittedOk.put (h : AdmittedOk t g l) (hflush : FlushOk g) (hsealed : Sealed g)
    (hcall : l.call = .put key value i pc)
    (hput : putStep t slot choice g key value i pc = (g', i', pc')) :
    AdmittedOk t g' { l with putRef := some i', call := .afterPut key value i' pc' } := by
  rcases pc' with - | q
  · exact ⟨nofun, nofun⟩
  · refine ⟨fun j hj => h.put_writer hcall hput hflush hsealed hj, ?_⟩
    intro key' value' j q' j' hq' hpc
    cases hq'
    exact h.put_flushed hcall hput hpc

theorem AdmittedOk.open_drawn (h : AdmittedOk t g l) (hcall : l.call = .put key value i pc) :
    ∀ seq, pc = .drawn seq → g.Open i := by
  rintro seq rfl
  exact h.writer i (by rw [hcall]; rfl)

theorem AdmittedOk.flushed_unlock (h : AdmittedOk t g l) (hcall : l.call = .put key value i pc) :
    ∀ j, pc = .flushUnlock j → j < g.table := by
  rintro j rfl
  exact h.flushed key value i _ j hcall (.inr rfl)

end Writing

/-! ### Flushing -/

section Flushing

variable {g g' : SharedState n K} {b : FlushAct}

theorem FlushOk.setStage (h : FlushOk g) {i : ℕ} {stage : FlushStage K}
    (hi : g.stages i ≠ .waiting)
    (hstage : ∀ entries, stage = .written entries → entries = (g.tables i).contents.entries) :
    FlushOk { g with stages := update g.stages i stage } := by
  refine ⟨h.ssts_le, h.pending, fun j hj => ?_, fun j entries hj => ?_, h.published⟩
  · change update g.stages i stage j ≠ _ at hj
    by_cases hji : j = i
    · exact hji ▸ h.staged i hi
    · rw [update_of_ne hji] at hj
      exact h.staged j hj
  · change update g.stages i stage j = _ at hj
    by_cases hji : j = i
    · subst hji
      rw [update_self] at hj
      exact hstage entries hj
    · rw [update_of_ne hji] at hj
      exact h.written j entries hj

theorem FlushOk.publish (h : FlushOk g) {i : ℕ} {entries : List (MemtableEntry K)}
    (hstage : g.stages i = .written entries) (hlen : g.ssts.length = i) :
    FlushOk { g with
      stages := update g.stages i .published
      pendingFlushes := g.pendingFlushes.filter fun q => q.2 ≠ i
      ssts := g.ssts ++ [entries] } := by
  have hi : i < g.table := h.staged i (by rw [hstage]; nofun)
  have hset : FlushOk { g with stages := update g.stages i .published } :=
    h.setStage (by rw [hstage]; nofun) nofun
  refine ⟨?_, ?_, hset.staged, hset.written, fun j es hj => ?_⟩
  · show (g.ssts ++ [entries]).length ≤ g.table
    rw [length_append, hlen]
    exact hi
  · show (g.pendingFlushes.filter fun q => q.2 ≠ i).map Prod.snd =
      range' (g.ssts ++ [entries]).length (g.table - (g.ssts ++ [entries]).length)
    have hfilter : (g.pendingFlushes.filter fun q => q.2 ≠ i).map Prod.snd =
        (g.pendingFlushes.map Prod.snd).filter fun j => j ≠ i := by
      rw [filter_map]
      rfl
    have hcount : g.table - i = g.table - (i + 1) + 1 := by omega
    rw [hfilter, h.pending, length_append, hlen, length_singleton, hcount,
      range'_succ, filter_cons_of_neg (by simp), filter_eq_self]
    intro j hj
    have hlt := (mem_range'_1.mp hj).1
    exact decide_eq_true (by omega)
  · change (g.ssts ++ [entries])[j]? = some es at hj
    rcases lt_or_ge j g.ssts.length with hlt | hge
    · rw [getElem?_append_left hlt] at hj
      exact h.published j es hj
    · rw [getElem?_append_right hge, getElem?_singleton] at hj
      split at hj
      · next hzero =>
        obtain rfl : j = i := by omega
        cases hj
        exact h.written j _ hstage
      · cases hj

theorem flushAct_flushOk (h : FlushOk g) (hflush : flushAct w b g = some g') : FlushOk g' := by
  rcases flushAct_cases hflush with ⟨i, slot, stage, -, hi, hstage, rfl⟩ | ⟨i, ok, -, hi, rfl⟩ |
    ⟨i, entries, -, hi, hlen, rfl⟩
  · refine h.setStage (by rw [hi]; nofun) ?_
    rcases hstage with rfl | ⟨c, rfl⟩ <;> nofun
  · refine h.setStage (by rw [hi]; nofun) fun entries hw => ?_
    cases ok <;> cases hw
    rfl
  · exact h.publish hi hlen

theorem flushAct_open (hj : g.Open j) (hwrite : ∀ i, b = .write i true → j ≠ i)
    (hflush : flushAct w b g = some g') : g'.Open j := by
  rcases flushAct_cases hflush with ⟨i, slot, stage, -, -, hstage, rfl⟩ | ⟨i, ok, rfl, -, rfl⟩ |
    ⟨i, entries, -, hi, hlen, rfl⟩
  · refine ⟨fun entries => ?_, hj.ssts⟩
    show update g.stages i stage j ≠ _
    rw [update_apply]
    split
    · rcases hstage with rfl | ⟨c, rfl⟩ <;> nofun
    · exact hj.written entries
  · refine ⟨fun entries => ?_, hj.ssts⟩
    show update g.stages i _ j ≠ _
    cases ok
    · rw [update_apply]
      split
      · nofun
      · exact hj.written entries
    · rw [update_of_ne (hwrite i rfl)]
      exact hj.written entries
  · have hne : j ≠ i := by
      rintro rfl
      exact hj.written entries hi
    refine ⟨fun es => ?_, ?_⟩
    · show update g.stages i .published j ≠ _
      rw [update_of_ne hne]
      exact hj.written es
    · have hle := hj.ssts
      show (g.ssts ++ [entries]).length ≤ j
      rw [length_append, length_singleton]
      omega

end Flushing

/-! ### What is flushed -/

/-- All that is on its way to the SSTs, or there, has a property. -/
structure FlushedAll (P : List (MemtableEntry K) → Prop) (g : SharedState n K) : Prop where
  written : ∀ i entries, g.stages i = .written entries → P entries
  ssts : ∀ entries ∈ g.ssts, P entries

section Flushed

variable {P : List (MemtableEntry K) → Prop} {g g' : SharedState n K}

theorem FlushedAll.put (h : FlushedAll P g) {t : Fin n} {slot : ℕ} {choice : Bool} {key : K}
    {value : Bytes} {i i' : ℕ} {pc : PutPc} {pc' : Option PutPc}
    (hput : putStep t slot choice g key value i pc = (g', i', pc')) : FlushedAll P g' :=
  ⟨fun j entries hj => h.written j entries (putStep_written hput hj),
    (putStep_flush hput).1.symm ▸ h.ssts⟩

theorem FlushedAll.thread (h : FlushedAll P g) {t : Fin n} {a : ThreadAct K} {l' : ThreadState K}
    (hact : threadAct w t a g l = some (g', l')) : FlushedAll P g' := by
  rcases threadAct_shared hact with rfl | ⟨_, _, _, _, _, _, _, -, hput⟩
  · exact h
  · exact h.put hput

theorem FlushedAll.flush (h : FlushedAll P g) {b : FlushAct}
    (hwrite : ∀ i, b = .write i true → P (g.tables i).contents.entries)
    (hflush : flushAct w b g = some g') : FlushedAll P g' := by
  rcases flushAct_cases hflush with ⟨i, slot, stage, -, -, hstage, rfl⟩ | ⟨i, ok, rfl, -, rfl⟩ |
    ⟨i, entries, -, hi, -, rfl⟩
  · refine ⟨fun j es hj => ?_, h.ssts⟩
    change update g.stages i stage j = _ at hj
    rw [update_apply] at hj
    split at hj
    · subst hj
      rcases hstage with hstage | ⟨c, hstage⟩ <;> cases hstage
    · exact h.written j es hj
  · refine ⟨fun j es hj => ?_, h.ssts⟩
    change update g.stages i _ j = _ at hj
    rw [update_apply] at hj
    split at hj
    · cases ok <;> cases hj
      exact hwrite i rfl
    · exact h.written j es hj
  · refine ⟨fun j es hj => ?_, fun es hes => ?_⟩
    · change update g.stages i .published j = _ at hj
      rw [update_apply] at hj
      split at hj
      · cases hj
      · exact h.written j es hj
    · rcases mem_append.mp hes with hold | hnew
      · exact h.ssts es hold
      · exact mem_singleton.mp hnew ▸ h.written i entries hi

end Flushed

/-! ### Runs -/

section Runs

variable {s : State (Fin n) (SharedState n K) (ThreadState K)} {g : SharedState n K}

theorem newMemtable_flushOk : Holds FlushOk AdmittedOk (newMemtable n K) :=
  ⟨⟨le_rfl, rfl, fun _ h => absurd rfl h, nofun, nofun⟩, fun _ => ⟨nofun, nofun⟩⟩

theorem threadAct_flushOk {t : Fin n} {a : ThreadAct K}
    (hbase : Holds Sealed ThreadOk s) (hs : Holds FlushOk AdmittedOk s)
    (h : threadAct w t a s.shared (s.threads t) = some (g, l)) :
    FlushOk g ∧ AdmittedOk t g l ∧ ∀ u, u ≠ t → AdmittedOk u g (s.threads u) := by
  have hown := hs.threads t
  rcases threadAct_cases h with ⟨key, value, i, rfl, -, -, rfl, rfl⟩ |
    ⟨key, epoch, i, pc, -, -, hpc, rfl, rfl⟩ |
    ⟨choice, key, value, i, pc, i', pc', -, hcall, hput, rfl⟩ |
    ⟨choice, key, since, epoch, i, pc, epoch', i', pc', rfl, hcall, hget, rfl, rfl⟩
  · refine ⟨hs.shared, ⟨nofun, ?_⟩, fun u _ => hs.threads u⟩
    intro key' value' j pc j' hput hpc
    cases hput
    rcases hpc with hpc | hpc <;> cases hpc
  · exact ⟨hs.shared, ⟨nofun, nofun⟩, fun u _ => hs.threads u⟩
  · exact ⟨hs.shared.put (hown.open_drawn hcall) (hown.flushed_unlock hcall) hput,
      hown.put hs.shared hbase.shared hcall hput,
      fun u _ => (hs.threads u).others (putStep_grows hput) fun j _ hj => putStep_open hput hj⟩
  · refine ⟨hs.shared, ?_, fun u _ => hs.threads u⟩
    rcases pc' with - | pc' <;> exact ⟨nofun, nofun⟩

theorem flushAct_writers {b : FlushAct} (hs : Holds FlushOk AdmittedOk s)
    (hdone : ∀ i, b = .write i true → WritersDone s i) (h : flushAct w b s.shared = some g) :
    FlushOk g ∧ ∀ u, AdmittedOk u g (s.threads u) := by
  refine ⟨flushAct_flushOk hs.shared h, fun u => ?_⟩
  refine (hs.threads u).others (flushAct_grows h) fun j hj hopen => flushAct_open hopen ?_ h
  intro i hb
  exact hdone i hb u j hj

theorem threadAct_published {t : Fin n} {a : ThreadAct K}
    (hs : Holds FlushOk AdmittedOk s)
    (h : threadAct w t a s.shared (s.threads t) = some (g, l)) :
    g.ssts = s.shared.ssts ∧
      ∀ j < s.shared.ssts.length, (g.tables j).contents = (s.shared.tables j).contents := by
  rcases threadAct_shared h with rfl | ⟨choice, key, value, i, pc, i', pc', hcall, hput⟩
  · exact ⟨rfl, fun _ _ => rfl⟩
  · exact ⟨(putStep_flush hput).1,
      fun j hj => putStep_published ((hs.threads t).open_drawn hcall) hput hj⟩

end Runs

end HedgeDB
