/-
HedgeDB/ReadYourWrites.lean

A `get` that starts after a `put_async` has returned (`src/db/memtable.cc`).

The entry of a returned write is in some table, which is current, pending or
published (`StoreOk.located`); `get` looks at its cached table, then at a copy of
the pending ones, then at the SSTs.  Two things can go wrong.  `_flush` publishes
the new table before it bumps `_table_switch_epoch`, so a `get` in between keeps
the old table and never sees the new one (`stale_table_misses_put`).  And
`_flush_inner` may write a table whose writers are still at work when threads
share a counter.  `ReadOk` excludes the two.  The SSTs are the entries of the flushed
tables here; that they are read from their pages is one more condition, on the tables that
are written (`ReadBackOk`).  Under it every such `get` finds the write
(`get_returns_put`).
-/
import HedgeDB.SstReads
import HedgeDB.TableFlush

namespace HedgeDB

open Interleave SharedState List

variable {K : Type*} [LinearOrder K] {n w : ℕ}

/-- Key, cached epoch and cached table of a `get` at its epoch check. -/
def Call.atCheck : Call K → Option (K × ℕ × ℕ)
  | .get key _ epoch i .check => some (key, epoch, i)
  | _ => none

/-- The conditions on the steps.  At its epoch check a `get` is about to reload,
or has the current table, or the current table has nothing for it; and a table is
written to SSTs when its writers are done. -/
def ReadOk (s : State (Fin n) (SharedState n K) (ThreadState K)) :
    Label (Fin n) (ThreadAct K) FlushAct → Prop
  | .thread t (.run _) =>
      ∀ c ∈ (s.threads t).call.atCheck, s.shared.tableSwitchEpoch > c.2.1 ∨
        c.2.2 = s.shared.table ∨ s.shared.lookup s.shared.table c.1 = none
  | .background (.write i true) => WritersDone s i
  | _ => True

instance (s : State (Fin n) (SharedState n K) (ThreadState K)) :
    (a : Label (Fin n) (ThreadAct K) FlushAct) → Decidable (ReadOk s a)
  | .thread t (.run _) => inferInstanceAs
      (Decidable (∀ c ∈ (s.threads t).call.atCheck, _ ∨ _ ∨ _))
  | .background (.write i true) => inferInstanceAs (Decidable (WritersDone s i))
  | .background (.write _ false) | .background (.scan _) | .background (.publish _)
  | .thread _ (.startPut _ _) | .thread _ (.startGet _) => isTrue trivial

/-- And the SSTs of a table that is written are read back. -/
def ReadBackOk (numPartitionExponent : ℕ)
    (s : State (Fin n) (SharedState n Bytes) (ThreadState Bytes)) :
    Label (Fin n) (ThreadAct Bytes) FlushAct → Prop
  | .background (.write i true) => WritersDone s i ∧
      FlushReadsBack numPartitionExponent (s.shared.tables i).contents.entries
  | a => ReadOk s a

instance (numPartitionExponent : ℕ)
    (s : State (Fin n) (SharedState n Bytes) (ThreadState Bytes)) :
    (a : Label (Fin n) (ThreadAct Bytes) FlushAct) →
      Decidable (ReadBackOk numPartitionExponent s a)
  | .background (.write _ true) => inferInstanceAs (Decidable (_ ∧ _))
  | .background (.write i false) => inferInstanceAs
      (Decidable (ReadOk s (.background (.write i false))))
  | .background (.scan i) => inferInstanceAs (Decidable (ReadOk s (.background (.scan i))))
  | .background (.publish i) => inferInstanceAs (Decidable (ReadOk s (.background (.publish i))))
  | .thread t a => inferInstanceAs (Decidable (ReadOk s (.thread t a)))

theorem ReadBackOk.readOk {e : ℕ}
    {s : State (Fin n) (SharedState n Bytes) (ThreadState Bytes)}
    {a : Label (Fin n) (ThreadAct Bytes) FlushAct} (h : ReadBackOk e s a) :
    ReadOk s a := by
  match a, h with
  | .background (.write _ true), h => exact h.1
  | .background (.write _ false), h | .background (.scan _), h | .background (.publish _), h
  | .thread _ _, h => exact h

/-- The writes of a run to key `k` are all of `v`. -/
def WritesOnly (k : K) (v : Bytes) : Label (Fin n) (ThreadAct K) FlushAct → Prop
  | .thread _ (.startPut key value) => key = k → value = v
  | _ => True

instance (k : K) (v : Bytes) :
    (a : Label (Fin n) (ThreadAct K) FlushAct) → Decidable (WritesOnly k v a)
  | .thread _ (.startPut key value) => inferInstanceAs (Decidable (key = k → value = v))
  | .thread _ (.startGet _) | .thread _ (.run _) | .background _ => isTrue trivial

/-! ### Where the entry is -/

variable {i : ℕ}

section Located

variable {k : K} {v : Bytes} {g g' : SharedState n K}

/-- Table `i` has an entry for the key. -/
def SharedState.Has (g : SharedState n K) (k : K) (i : ℕ) : Prop :=
  ∃ e ∈ (g.tables i).contents.entries, e.key = k

theorem SharedState.Grows.has (h : Grows g g') (hi : g.Has k i) : g'.Has k i := by
  obtain ⟨e, he, hk⟩ := hi
  exact ⟨e, h.contents i e he, hk⟩

theorem lookup_eq_none_iff_not_has : g.lookup i k = none ↔ ¬ g.Has k i := by
  rw [SharedState.lookup, Option.map_eq_none_iff, Skiplist.get_eq_lookup,
    KeyedList.lookup_eq_none_iff]
  simp [SharedState.Has]

/-- The shared state as far as key `k` is concerned. -/
structure StoreOk (k : K) (v : Bytes) (g : SharedState n K) : Prop extends FlushOk g where
  value : ∀ i, ∀ e ∈ (g.tables i).contents.entries, e.key = k → e.value = v
  located : (k, v) ∈ g.returned → ∃ i ≤ g.table, g.Has k i

/-- What a `get` of the key may still rely on, if the write had returned when it
started. -/
def GetOk (k : K) (v : Bytes) (g : SharedState n K) (i : ℕ) : GetPc → Prop
  | .initEpoch | .initTable | .check | .reload => (k, v) ∈ g.returned
  | .readTable => g.Has k i ∨ ∃ j < g.table, g.Has k j
  | .copyPending => ∃ j < g.table, g.Has k j
  | .search js => ∃ j, g.Has k j ∧ (j ∈ js ∨ j < g.ssts.length)
  | .searchSsts => ∃ j < g.ssts.length, g.Has k j
  | .returned value => value = some v

theorem GetOk.grows {pc : GetPc} (h : GetOk k v g i pc) (hgrows : Grows g g') :
    GetOk k v g' i pc := by
  have hssts : g.ssts.length ≤ g'.ssts.length := hgrows.ssts.length_le
  cases pc with
  | initEpoch | initTable | check | reload => exact hgrows.returned _ h
  | readTable =>
    rcases h with h | ⟨j, hj, h⟩
    · exact .inl (hgrows.has h)
    · exact .inr ⟨j, hj.trans_le hgrows.table, hgrows.has h⟩
  | copyPending =>
    obtain ⟨j, hj, h⟩ := h
    exact ⟨j, hj.trans_le hgrows.table, hgrows.has h⟩
  | search js =>
    obtain ⟨j, h, hj⟩ := h
    exact ⟨j, hgrows.has h, hj.imp_right fun hlt => hlt.trans_le hssts⟩
  | searchSsts =>
    obtain ⟨j, hj, h⟩ := h
    exact ⟨j, hj.trans_le hssts, hgrows.has h⟩
  | returned value => exact h

end Located

/-! ### Reading -/

section Reading

variable {k : K} {v : Bytes} {g : SharedState n K}

theorem StoreOk.lookup_eq (h : StoreOk k v g) {value : Bytes}
    (hlookup : g.lookup i k = some value) : value = v := by
  obtain ⟨e, he, rfl⟩ := Option.map_eq_some_iff.mp hlookup
  rw [Skiplist.get_eq_lookup] at he
  obtain ⟨hmem, hk⟩ := KeyedList.lookup_mem he
  exact h.value i e hmem hk

theorem StoreOk.lookupSsts_eq (h : StoreOk k v g) {j : ℕ} (hj : j < g.ssts.length)
    (hhas : g.Has k j) : g.lookupSsts k = some v := by
  unfold SharedState.lookupSsts
  rcases hfind : g.ssts.reverse.findSome? fun es => KeyedList.lookup MemtableEntry.key es k
    with - | e
  · obtain ⟨entries, hentries⟩ : ∃ entries, g.ssts[j]? = some entries :=
      ⟨_, getElem?_eq_getElem hj⟩
    have hnone := findSome?_eq_none_iff.mp hfind entries
      (mem_reverse.mpr (mem_of_getElem? hentries))
    obtain ⟨e, he, hk⟩ := hhas
    rw [← h.published j entries hentries] at he
    exact absurd hk (KeyedList.lookup_eq_none_iff.mp hnone e he)
  · obtain ⟨entries, hmem, he⟩ := exists_of_findSome?_eq_some hfind
    obtain ⟨i, hi⟩ := mem_iff_getElem?.mp (mem_reverse.mp hmem)
    obtain ⟨hin, hk⟩ := KeyedList.lookup_mem he
    rw [h.published i entries hi] at hin
    exact congrArg some (h.value i e hin hk)

theorem StoreOk.pending_or_published (h : StoreOk k v g) {j : ℕ} (hj : j < g.table) :
    j ∈ (g.pendingFlushes.map Prod.snd).reverse ∨ j < g.ssts.length := by
  rcases lt_or_ge j g.ssts.length with hlt | hge
  · exact .inr hlt
  · left
    rw [mem_reverse, h.pending, mem_range'_1]
    omega

theorem getStep_ok (h : StoreOk k v g) {epoch epoch' i' : ℕ} {pc pc' : GetPc}
    (hget : GetOk k v g i pc)
    (hcheck : pc = .check → g.tableSwitchEpoch > epoch ∨ i = g.table ∨ g.lookup g.table k = none)
    (hstep : getStep g k epoch i pc = (epoch', i', some pc')) : GetOk k v g i' pc' := by
  cases pc with
  | initEpoch | initTable =>
    cases hstep
    exact hget
  | check =>
    rw [getStep] at hstep
    split_ifs at hstep with hepoch
    · cases hstep
      exact hget
    · cases hstep
      -- no reload: the entry is in the cached table, or in one that was swapped out
      obtain ⟨j, hj, hhas⟩ := h.located hget
      rcases hj.lt_or_eq with hlt | rfl
      · exact .inr ⟨j, hlt, hhas⟩
      · rcases hcheck rfl with hgt | rfl | hnone
        · exact absurd hgt hepoch
        · exact .inl hhas
        · exact absurd hhas (lookup_eq_none_iff_not_has.mp hnone)
  | reload =>
    cases hstep
    obtain ⟨j, hj, hhas⟩ := h.located hget
    rcases hj.lt_or_eq with hlt | rfl
    · exact .inr ⟨j, hlt, hhas⟩
    · exact .inl hhas
  | readTable =>
    rw [getStep] at hstep
    split at hstep
    · next value hlookup =>
      cases hstep
      exact congrArg some (h.lookup_eq hlookup)
    · next hlookup =>
      cases hstep
      exact hget.resolve_left (lookup_eq_none_iff_not_has.mp hlookup)
  | copyPending =>
    cases hstep
    obtain ⟨j, hj, hhas⟩ := hget
    exact ⟨j, hhas, h.pending_or_published hj⟩
  | search js =>
    obtain ⟨j, hhas, hj⟩ := hget
    rcases js with - | ⟨j', rest⟩
    · cases hstep
      exact ⟨j, hj.resolve_left not_mem_nil, hhas⟩
    · rw [getStep] at hstep
      split at hstep
      · next value hlookup =>
        cases hstep
        exact congrArg some (h.lookup_eq hlookup)
      · next hlookup =>
        cases hstep
        refine ⟨j, hhas, hj.imp_left fun hmem => ?_⟩
        rcases mem_cons.mp hmem with rfl | hrest
        · exact absurd hhas (lookup_eq_none_iff_not_has.mp hlookup)
        · exact hrest
  | searchSsts =>
    cases hstep
    obtain ⟨j, hj, hhas⟩ := hget
    exact h.lookupSsts_eq hj hhas
  | returned value => cases hstep

end Reading

/-! ### Writing -/

/-- Where a thread may be, as far as key `k` is concerned. -/
structure CallOk (k : K) (v : Bytes) (t : Fin n) (g : SharedState n K) (l : ThreadState K) : Prop
    extends AdmittedOk t g l where
  value : ∀ value i pc, l.call = .put k value i pc → value = v
  inserted : ∀ key value i pc, l.call = .put key value i pc →
    pc = .inserted ∨ pc = .release true → g.Has key i
  get : ∀ since epoch i pc, l.call = .get k since epoch i pc → (k, v) ∈ since →
    GetOk k v g i pc

variable {l : ThreadState K}

section Writing

variable {k : K} {v : Bytes} {g g' : SharedState n K}

theorem CallOk.others {u : Fin n} (h : CallOk k v u g l) (hgrows : Grows g g')
    (hopen : ∀ i ∈ l.call.writesTo, g.Open i → g'.Open i) :
    CallOk k v u g' l where
  toAdmittedOk := h.toAdmittedOk.others hgrows hopen
  value := h.value
  inserted key value i pc hcall hpc := hgrows.has (h.inserted key value i pc hcall hpc)
  get since epoch i pc hcall hsince := (h.get since epoch i pc hcall hsince).grows hgrows

variable {t : Fin n} {slot : ℕ} {choice : Bool} {key : K} {value : Bytes} {i i' : ℕ} {pc : PutPc}
  {pc' : Option PutPc}

theorem StoreOk.put (h : StoreOk k v g) (hle : i ≤ g.table) (hvalue : key = k → value = v)
    (hopen : ∀ seq, pc = .drawn seq → g.Open i) (hreturn : pc = .release true → g.Has key i)
    (hflushed : ∀ j, pc = .flushUnlock j → j < g.table)
    (hput : putStep t slot choice g key value i pc = (g', i', pc')) : StoreOk k v g' := by
  have hgrows := putStep_grows hput
  refine ⟨h.toFlushOk.put hopen hflushed hput, fun j e he hk => ?_, fun hret => ?_⟩
  · rcases putStep_contents hput with hsame | ⟨seq, -, rfl⟩
    · rw [hsame] at he
      exact h.value j e he hk
    · by_cases hj : j = i
      · subst hj
        rw [insert_contents_self] at he
        rcases Skiplist.mem_insert he with rfl | hold
        · exact hvalue hk
        · exact h.value j e hold hk
      · rw [insert_contents_of_ne hj] at he
        exact h.value j e he hk
  · rcases putStep_return hput with ⟨hpc, -, hreturned⟩ | ⟨hreturned, -⟩
    · rw [hreturned] at hret
      rcases mem_append.mp hret with hold | hnew
      · obtain ⟨j, hj, hhas⟩ := h.located hold
        exact ⟨j, hj.trans hgrows.table, hgrows.has hhas⟩
      · cases mem_singleton.mp hnew
        exact ⟨i, hle.trans hgrows.table, hgrows.has (hreturn hpc)⟩
    · obtain ⟨j, hj, hhas⟩ := h.located (hreturned ▸ hret)
      exact ⟨j, hj.trans hgrows.table, hgrows.has hhas⟩

theorem CallOk.put_inserted (h : CallOk k v t g l) (hcall : l.call = .put key value i pc)
    {q : PutPc} (hput : putStep t slot choice g key value i pc = (g', i', some q))
    (hq : q = .inserted ∨ q = .release true) : g'.Has key i' := by
  rcases hq with rfl | rfl
  · rcases putStep_write hput with ⟨-, -, -, hq, -⟩ | ⟨seq, -, rfl, -, rfl⟩ |
      ⟨-, -, -, -, hnoins, -⟩
    · cases hq
    · obtain ⟨e, he, hk, -⟩ :=
        exists_seq_insertEntry ⟨key, seq, value⟩ (g.tables i').contents.entries
      refine ⟨e, ?_, hk⟩
      rw [insert_contents_self]
      exact he
    · exact absurd rfl hnoins
  · rcases putStep_return hput with ⟨-, hnone, -⟩ | ⟨-, hfrom⟩
    · cases hnone
    · obtain ⟨rfl, rfl⟩ := hfrom rfl
      exact (putStep_grows hput).has (h.inserted key value i' _ hcall (.inl rfl))

theorem CallOk.put (h : CallOk k v t g l) (hstore : StoreOk k v g) (hsealed : Sealed g)
    (hcall : l.call = .put key value i pc)
    (hput : putStep t slot choice g key value i pc = (g', i', pc')) :
    CallOk k v t g' { l with putRef := some i', call := .afterPut key value i' pc' } := by
  have hwriter := h.toAdmittedOk.put hstore.toFlushOk hsealed hcall hput
  rcases pc' with - | q
  · exact ⟨hwriter, nofun, nofun, nofun⟩
  · refine ⟨hwriter, ?_, ?_, nofun⟩
    · intro value' j q' hq'
      cases hq'
      exact h.value _ _ _ hcall
    · intro key' value' j q' hq' hpc
      cases hq'
      exact h.put_inserted hcall hput hpc

end Writing

theorem flushAct_store {k : K} {v : Bytes} {g g' : SharedState n K} {b : FlushAct}
    (h : StoreOk k v g) (hflush : flushAct w b g = some g') : StoreOk k v g' := by
  refine ⟨flushAct_flushOk h.toFlushOk hflush, ?_, ?_⟩ <;>
    rcases flushAct_cases hflush with ⟨i, slot, stage, -, -, -, rfl⟩ | ⟨i, ok, -, -, rfl⟩ |
      ⟨i, entries, -, -, -, rfl⟩
  · exact h.value
  · exact h.value
  · exact h.value
  · exact h.located
  · exact h.located
  · exact h.located

/-! ### Runs -/

section Runs

variable {k : K} {v : Bytes}
  {s : State (Fin n) (SharedState n K) (ThreadState K)} {g : SharedState n K}

theorem newMemtable_store : Holds (StoreOk k v) (CallOk k v) (newMemtable n K) :=
  ⟨⟨newMemtable_flushOk.shared, nofun, nofun⟩,
    fun t => ⟨newMemtable_flushOk.threads t, nofun, nofun, nofun⟩⟩

theorem threadAct_store {t : Fin n} {a : ThreadAct K} (hbase : Holds Sealed ThreadOk s)
    (hs : Holds (StoreOk k v) (CallOk k v) s) (hread : ReadOk s (.thread t a))
    (honly : WritesOnly (n := n) k v (.thread t a))
    (h : threadAct w t a s.shared (s.threads t) = some (g, l)) :
    StoreOk k v g ∧ CallOk k v t g l ∧ ∀ u, u ≠ t → CallOk k v u g (s.threads u) := by
  have hown := hs.threads t
  have hwriter := (threadAct_flushOk hbase
    ⟨hs.shared.toFlushOk, fun u => (hs.threads u).toAdmittedOk⟩ h).2.1
  rcases threadAct_cases h with ⟨key, value, i, rfl, -, -, rfl, rfl⟩ |
    ⟨key, epoch, i, pc, -, -, hpc, rfl, rfl⟩ |
    ⟨choice, key, value, i, pc, i', pc', -, hcall, hput, rfl⟩ |
    ⟨choice, key, since, epoch, i, pc, epoch', i', pc', rfl, hcall, hget, rfl, rfl⟩
  · refine ⟨hs.shared, ⟨hwriter, ?_, ?_, nofun⟩, fun u _ => hs.threads u⟩
    · intro value' j pc hput
      cases hput
      exact honly rfl
    · intro key' value' j pc hput hpc
      cases hput
      rcases hpc with hpc | hpc <;> cases hpc
  · refine ⟨hs.shared, ⟨hwriter, nofun, nofun, ?_⟩, fun u _ => hs.threads u⟩
    intro since' epoch' j pc' hget hsince
    cases hget
    rcases hpc with rfl | rfl <;> exact hsince
  · refine ⟨?_, hown.put hs.shared hbase.shared hcall hput, fun u _ => ?_⟩
    · refine hs.shared.put ((hbase.threads t).put key value i pc hcall).le ?_ ?_ ?_ ?_ hput
      · rintro rfl
        exact hown.value value i pc hcall
      · exact hown.open_drawn hcall
      · rintro rfl
        exact hown.inserted key value i _ hcall (.inr rfl)
      · exact hown.flushed_unlock hcall
    · exact (hs.threads u).others (putStep_grows hput) fun j _ hj => putStep_open hput hj
  · refine ⟨hs.shared, ?_, fun u _ => hs.threads u⟩
    rcases pc' with - | pc'
    · exact ⟨hwriter, nofun, nofun, nofun⟩
    · refine ⟨hwriter, nofun, nofun, ?_⟩
      intro since' e j q hq hsince
      cases hq
      refine getStep_ok hs.shared (hown.get since epoch i pc hcall hsince) ?_ hget
      rintro rfl
      exact hread (k, epoch, i) (by rw [hcall]; rfl)

theorem flushAct_calls {b : FlushAct} (hs : Holds (StoreOk k v) (CallOk k v) s)
    (hread : ReadOk s (.background b)) (h : flushAct w b s.shared = some g) :
    StoreOk k v g ∧ ∀ u, CallOk k v u g (s.threads u) := by
  refine ⟨flushAct_store hs.shared h, fun u => ?_⟩
  refine (hs.threads u).others (flushAct_grows h) fun j hj hopen => flushAct_open hopen ?_ h
  rintro i rfl
  exact hread u j hj

/-- **Read your writes**: if the steps of a run meet the conditions and write
nothing but `v` to `k`, a `get` of `k` that started after such a write had
returned returns `v`; and the SSTs that the run has published are read from their pages. -/
theorem get_returns_put {k : Bytes} {numPartitionExponent : ℕ} (he : numPartitionExponent ≤ 16)
    {s : State (Fin n) (SharedState n Bytes) (ThreadState Bytes)}
    {as : List (Label (Fin n) (ThreadAct Bytes) FlushAct)}
    (hall : Run.AllSteps (memtable n w Bytes).step (ReadBackOk numPartitionExponent)
      (newMemtable n Bytes) as)
    (honly : ∀ a ∈ as, WritesOnly k v a)
    (hrun : Run.exec (memtable n w Bytes).step (newMemtable n Bytes) as = some s)
    {t : Fin n} {since : List (Bytes × Bytes)} {epoch i : ℕ} {value : Option Bytes}
    (hget : (s.threads t).call = .get k since epoch i (.returned value))
    (hsince : (k, v) ∈ since) :
    value = some v ∧ ∀ entries ∈ s.shared.ssts, ∀ fileId flushIteration, ∃ ssts,
      flushMemtable (findMatchingPartitionForKey numPartitionExponent) fileId flushIteration
        entries = .ok ssts ∧ ∀ X ∈ ssts, X.ReadFromPages := by
  have hsteps := (hall.and (Run.allSteps_of_forall honly)).and_invariant
    (I := Holds Sealed ThreadOk)
    (fun _ _ _ hs _ hst => memtable_step_ok hs hst) newMemtable_ok
  have hflushed : FlushedAll (FlushReadsBack numPartitionExponent) s.shared := by
    refine (exec_holds (A := fun _ _ _ => True) ?_ ?_ ⟨⟨nofun, nofun⟩, fun _ => trivial⟩
      hall hrun).shared
    · intro s t a g l hs _ hact
      exact ⟨hs.shared.thread hact, trivial, fun _ _ => trivial⟩
    · intro s b g hs hc hbackground
      refine ⟨hs.shared.flush ?_ hbackground, fun _ => trivial⟩
      rintro i rfl
      exact hc.2
  have hstore : Holds (StoreOk k v) (CallOk k v) s := by
    refine exec_holds ?_ ?_ newMemtable_store hsteps hrun
    · intro s t a g l hs hc hact
      exact threadAct_store hc.1 hs hc.2.1.readOk hc.2.2 hact
    · intro s b g hs hc hbackground
      exact flushAct_calls hs hc.2.1.readOk hbackground
  refine ⟨(hstore.threads t).get since epoch i _ hget hsince, fun entries hentries => ?_⟩
  obtain ⟨j, hj⟩ := mem_iff_getElem?.mp hentries
  have hsorted : entries.Pairwise fun a b => memtableCmp a b = true :=
    hstore.shared.published j entries hj ▸ (s.shared.tables j).contents.sorted
  have hread := hflushed.ssts entries hentries
  intro fileId flushIteration
  obtain ⟨ssts, hok⟩ := hread.flush_ok he hsorted fileId flushIteration
  exact ⟨ssts, hok, hread.readFromPages hsorted hok⟩

end Runs

/-- Threads C and B write a key each, the table is switched and flushed, and thread A reads
the key of thread C from the SSTs. -/
def readFlushed : List (Label (Fin 3) (ThreadAct Bytes) FlushAct) :=
  flushFirstTable [0, 1] [0, 2] ++ [.thread threadA (.startGet [0, 1])] ++
    threadRuns threadA [true, true, true, true, true, true, true]

theorem get_returns_put_example :
    Run.AllSteps (memtable 3 3 Bytes).step (ReadBackOk 4) (newMemtable 3 Bytes) readFlushed ∧
      (∀ a ∈ readFlushed, WritesOnly [0, 1] [1, 10] a) ∧
      ∃ s value, Run.exec (memtable 3 3 Bytes).step (newMemtable 3 Bytes) readFlushed = some s ∧
        (s.threads threadA).call = .get [0, 1] [([0, 1], [1, 10])] 1 1 (.returned value) ∧
        value = some [1, 10] := by
  have hall : Run.AllSteps (memtable 3 3 Bytes).step (ReadBackOk 4) (newMemtable 3 Bytes)
      readFlushed := by
    decide +kernel
  have honly : ∀ a ∈ readFlushed, WritesOnly [0, 1] [1, 10] a := by decide
  obtain ⟨s, hrun, hget⟩ :
      ∃ s, Run.exec (memtable 3 3 Bytes).step (newMemtable 3 Bytes) readFlushed = some s ∧
        (s.threads threadA).call =
          .get [0, 1] [([0, 1], [1, 10])] 1 1 (.returned (some [1, 10])) :=
    ⟨_, rfl, rfl⟩
  exact ⟨hall, honly, s, _, hrun, hget,
    (get_returns_put (by decide) hall honly hrun hget (mem_singleton_self _)).1⟩

/-- Thread A caches table 0; thread B switches to table 1 and has yet to bump the
epoch; thread C writes key 1 to table 1 and returns; thread A reads key 1. -/
def readBeforeBump : List (Label (Fin 3) (ThreadAct ℕ) FlushAct) :=
  [.thread threadA (.startGet 7)] ++ threadRuns threadA [true, true, true, true, true, true, true, true] ++
  fillAndSwitch 2 ++
  [.thread threadC (.startPut 1 [1, 10])] ++ threadRuns threadC [true, true, true, true, true, true] ++
  [.thread threadA (.startGet 1)] ++ threadRuns threadA [true, true, true, true, true, true]

theorem stale_table_misses_put :
    (∀ a ∈ readBeforeBump, WritesOnly 1 [1, 10] a) ∧
      ∃ s, Run.exec (memtable 3 3 ℕ).step (newMemtable 3 ℕ) readBeforeBump = some s ∧
        (s.threads threadA).call = .get 1 [(1, [1, 10])] 0 0 (.returned none) :=
  ⟨by decide, _, rfl, rfl⟩

end HedgeDB
