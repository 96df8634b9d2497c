/-
HedgeDB/TableSwitch.lean

What holds of the memtable in every interleaving.

`putStep_grows` and `flushAct_grows` say what no action ever takes back: the
current table only moves on, frozen tables stay frozen, tables, SSTs and the
returned writes only gain.  `ThreadOk` says where the threads may be: the flush
mutex belongs to the thread inside `_flush`, which switches the table it has
frozen.  Hence every table that is no longer current is frozen (`Sealed`).
-/
import HedgeDB.Memtable
import HedgeDB.RwSync

namespace HedgeDB

open Interleave Option

variable {K : Type*} [LinearOrder K] {n w : ℕ}

/-! ### What an action does -/

variable {g g' : SharedState n K} {t : Fin n} {l : ThreadState K} {a : ThreadAct K}

theorem threadAct_cases {l' : ThreadState K} (h : threadAct w t a g l = some (g', l')) :
    (∃ key value i, a = .startPut key value ∧ l.call = .idle ∧ i = l.putRef.getD g.table ∧
      g' = g ∧ l' = { l with putRef := some i, call := .put key value i .start }) ∨
    (∃ key epoch i pc, a = .startGet key ∧ l.call = .idle ∧ (pc = .initEpoch ∨ pc = .check) ∧
      g' = g ∧ l' = { l with call := .get key g.returned epoch i pc }) ∨
    (∃ choice key value i pc i' pc', a = .run choice ∧ l.call = .put key value i pc ∧
      putStep t (t.val % w) choice g key value i pc = (g', i', pc') ∧
      l' = { l with putRef := some i', call := .afterPut key value i' pc' }) ∨
    (∃ choice key since epoch i pc epoch' i' pc', a = .run choice ∧
      l.call = .get key since epoch i pc ∧ getStep g key epoch i pc = (epoch', i', pc') ∧
      g' = g ∧ l' = { l with
        getRef := some (epoch', i')
        call := .afterGet key since epoch' i' pc' }) := by
  obtain ⟨putRef, getRef, call⟩ := l
  rcases a with ⟨key, value⟩ | ⟨key⟩ | choice <;> rcases call with - | ⟨k, v, i, pc⟩ | ⟨k, x, e, i, pc⟩
  case startPut.idle =>
    obtain ⟨rfl, rfl⟩ := Prod.mk.inj (some.inj h)
    exact .inl ⟨key, value, _, rfl, rfl, rfl, rfl, rfl⟩
  case startGet.idle =>
    rcases getRef with - | ⟨epoch, i⟩
    · obtain ⟨rfl, rfl⟩ := Prod.mk.inj (some.inj h)
      exact .inr (.inl ⟨key, 0, 0, _, rfl, rfl, .inl rfl, rfl, rfl⟩)
    · obtain ⟨rfl, rfl⟩ := Prod.mk.inj (some.inj h)
      exact .inr (.inl ⟨key, epoch, i, _, rfl, rfl, .inr rfl, rfl, rfl⟩)
  case run.put =>
    obtain ⟨rfl, rfl⟩ := Prod.mk.inj (some.inj h)
    exact .inr (.inr (.inl ⟨choice, k, v, i, pc, _, _, rfl, rfl, rfl, rfl⟩))
  case run.get =>
    obtain ⟨rfl, rfl⟩ := Prod.mk.inj (some.inj h)
    exact .inr (.inr (.inr ⟨choice, k, x, e, i, pc, _, _, _, rfl, rfl, rfl, rfl, rfl⟩))
  all_goals cases h

theorem flushAct_cases {a : FlushAct} (h : flushAct w a g = some g') :
    (∃ i slot stage, a = .scan i ∧ g.stages i = .draining slot ∧
      (stage = .writing ∨ ∃ c, stage = .draining c) ∧
      g' = { g with stages := Function.update g.stages i stage }) ∨
    (∃ i ok, a = .write i ok ∧ g.stages i = .writing ∧
      g' = { g with
        stages := Function.update g.stages i
          (if ok then .written (g.tables i).contents.entries else .failed) }) ∨
    (∃ i entries, a = .publish i ∧ g.stages i = .written entries ∧ g.ssts.length = i ∧
      g' = { g with
        stages := Function.update g.stages i .published
        pendingFlushes := g.pendingFlushes.filter fun q => q.2 ≠ i
        ssts := g.ssts ++ [entries] }) := by
  cases a with
  | scan i =>
    rw [flushAct] at h
    split at h
    · next slot hstage =>
      refine .inl ⟨i, slot, _, rfl, hstage, ?_, (some.inj h).symm⟩
      split_ifs
      · exact .inl rfl
      · exact .inr ⟨0, rfl⟩
      · exact .inr ⟨slot + 1, rfl⟩
    · cases h
  | write i ok =>
    rw [flushAct] at h
    split at h
    · next hstage => exact .inr (.inl ⟨i, ok, rfl, hstage, (some.inj h).symm⟩)
    · cases h
  | publish i =>
    rw [flushAct] at h
    split at h
    · next entries hstage =>
      split_ifs at h with hlen
      exact .inr (.inr ⟨i, entries, rfl, hstage, hlen, (some.inj h).symm⟩)
    · cases h

namespace SharedState

/-- What no action takes back. -/
structure Grows (g g' : SharedState n K) : Prop where
  table : g.table ≤ g'.table
  frozen : ∀ i, (g.tables i).frozen = true → (g'.tables i).frozen = true
  contents : ∀ i, ∀ e ∈ (g.tables i).contents.entries, e ∈ (g'.tables i).contents.entries
  ssts : g.ssts <+: g'.ssts
  returned : ∀ x ∈ g.returned, x ∈ g'.returned

theorem Grows.refl (g : SharedState n K) : Grows g g :=
  ⟨le_rfl, fun _ h => h, fun _ _ h => h, List.prefix_rfl, fun _ h => h⟩

theorem setTable_tables (g : SharedState n K) (i j : ℕ) (f : TableState K → TableState K) :
    (g.setTable i f).tables j = if j = i then f (g.tables j) else g.tables j := by
  show Function.update g.tables i (f (g.tables i)) j = _
  rw [Function.update_apply]
  split
  · next h => rw [h]
  · rfl

theorem setTable_grows (g : SharedState n K) (i : ℕ) {f : TableState K → TableState K}
    (hfrozen : ∀ t, t.frozen = true → (f t).frozen = true)
    (hcontents : ∀ t, ∀ e ∈ t.contents.entries, e ∈ (f t).contents.entries) :
    Grows g (g.setTable i f) := by
  refine ⟨le_rfl, fun j hj => ?_, fun j e he => ?_, List.prefix_rfl, fun _ h => h⟩
  · rw [setTable_tables]
    split
    · exact hfrozen _ hj
    · exact hj
  · rw [setTable_tables]
    split
    · exact hcontents _ e he
    · exact he

theorem setCounter_grows (g : SharedState n K) (i slot c : ℕ) : Grows g (g.setCounter i slot c) :=
  setTable_grows g i (fun _ h => h) fun _ _ h => h

theorem freezeWrites_grows (g : SharedState n K) (i : ℕ) : Grows g (g.freezeWrites i) :=
  setTable_grows g i (fun _ _ => rfl) fun _ _ h => h

theorem insert_grows (g : SharedState n K) (i : ℕ) (e : MemtableEntry K) :
    Grows g (g.insert i e) :=
  setTable_grows g i (fun _ h => h) fun _ _ h => Skiplist.mem_insert_of_mem h

end SharedState

open SharedState

variable {pc : PutPc} {pc' : Option PutPc} {i slot i' : ℕ} {choice : Bool} {value : Bytes} {key : K}

theorem putStep_grows (h : putStep t slot choice g key value i pc = (g', i', pc')) :
    Grows g g' := by
  obtain rfl : (putStep t slot choice g key value i pc).1 = g' := congrArg Prod.fst h
  cases pc with
  | start => exact setCounter_grows g i slot 1
  | refused => exact setCounter_grows g i slot 0
  | flushFreeze epoch => exact freezeWrites_grows g i
  | drawn seq =>
    cases choice
    · exact Grows.refl g
    · exact insert_grows g i _
  | flushSwap epoch => exact { Grows.refl g with table := Nat.le_succ _ }
  | release done =>
    cases done
    · exact setCounter_grows g i slot 0
    · exact { setCounter_grows g i slot 0 with
        returned := fun x hx => List.mem_append_left _ hx }
  | admitted => cases choice <;> exact { Grows.refl g with }
  | flushLock =>
    rw [putStep]
    split <;> exact { Grows.refl g with }
  | flushGuard =>
    rw [putStep]
    split_ifs <;> exact { Grows.refl g with }
  | announced | reload | inserted | flushEpoch | flushBump | flushUnlock =>
    exact { Grows.refl g with }

theorem flushAct_grows {a : FlushAct} (h : flushAct w a g = some g') : Grows g g' := by
  rcases flushAct_cases h with ⟨i, slot, stage, -, -, -, rfl⟩ | ⟨i, ok, -, -, rfl⟩ |
    ⟨i, entries, -, -, -, rfl⟩
  · exact { Grows.refl g with }
  · exact { Grows.refl g with }
  · exact { Grows.refl g with ssts := List.prefix_append _ _ }

/-- What is shared changes only in an action of `put_async`. -/
theorem threadAct_shared {l' : ThreadState K} (h : threadAct w t a g l = some (g', l')) :
    g' = g ∨ ∃ choice key value i pc i' pc', l.call = .put key value i pc ∧
      putStep t (t.val % w) choice g key value i pc = (g', i', pc') := by
  rcases threadAct_cases h with ⟨_, _, _, -, -, -, rfl, -⟩ | ⟨_, _, _, _, -, -, -, rfl, -⟩ |
    ⟨_, _, _, _, _, _, _, -, hcall, hput, -⟩ | ⟨_, _, _, _, _, _, _, _, _, -, -, -, rfl, -⟩
  · exact .inl rfl
  · exact .inl rfl
  · exact .inr ⟨_, _, _, _, _, _, _, hcall, hput⟩
  · exact .inl rfl

theorem threadAct_grows {l' : ThreadState K} (h : threadAct w t a g l = some (g', l')) :
    Grows g g' := by
  rcases threadAct_shared h with rfl | ⟨_, _, _, _, _, _, _, -, hput⟩
  · exact Grows.refl _
  · exact putStep_grows hput

/-- The part of an action of `put_async` that concerns writes: it draws a number,
inserts, or leaves numbers and tables alone; and a writer is admitted to a table
that is not frozen. -/
theorem putStep_write (h : putStep t slot choice g key value i pc = (g', i', pc')) :
    (choice = true ∧ pc = .admitted ∧ i' = i ∧ pc' = some (.drawn g.seqNr) ∧
      g' = { g with seqNr := g.seqNr + 1, drawn := g.drawn ++ [(i, g.seqNr)] }) ∨
    (∃ seq, pc = .drawn seq ∧ i' = i ∧ pc' = some .inserted ∧
      g' = g.insert i ⟨key, seq, value⟩) ∨
    ((∀ j, (g'.tables j).contents = (g.tables j).contents) ∧ g'.drawn = g.drawn ∧
      g'.seqNr = g.seqNr ∧ (∀ seq, pc' ≠ some (.drawn seq)) ∧ pc' ≠ some .inserted ∧
      (pc' = some .admitted → i' = i ∧ (g.tables i).frozen = false)) := by
  have hset : ∀ f : TableState K → TableState K, (∀ t, (f t).contents = t.contents) →
      ∀ j, ((g.setTable i f).tables j).contents = (g.tables j).contents := by
    intro f hf j
    rw [setTable_tables]
    split
    · exact hf _
    · rfl
  have hcounter : ∀ c j, ((g.setCounter i slot c).tables j).contents = (g.tables j).contents :=
    fun c => hset _ fun _ => rfl
  cases pc with
  | admitted =>
    cases choice
    · cases h
      exact .inr (.inr ⟨fun _ => rfl, rfl, rfl, nofun, nofun, nofun⟩)
    · cases h
      exact .inl ⟨rfl, rfl, rfl, rfl, rfl⟩
  | drawn seq =>
    cases choice
    · cases h
      exact .inr (.inr ⟨fun _ => rfl, rfl, rfl, nofun, nofun, nofun⟩)
    · cases h
      exact .inr (.inl ⟨seq, rfl, rfl, rfl, rfl⟩)
  | start | refused | flushFreeze =>
    cases h
    exact .inr (.inr ⟨hset _ fun _ => rfl, rfl, rfl, nofun, nofun, nofun⟩)
  | announced =>
    cases h
    refine .inr (.inr ⟨fun _ => rfl, rfl, rfl, ?_, ?_, ?_⟩)
    · intro seq
      split_ifs <;> nofun
    · split_ifs <;> nofun
    · split_ifs with hfrozen
      · nofun
      · exact fun _ => ⟨rfl, by simpa using hfrozen⟩
  | inserted =>
    cases choice <;> cases h <;>
      exact .inr (.inr ⟨fun _ => rfl, rfl, rfl, nofun, nofun, nofun⟩)
  | flushLock =>
    rw [putStep] at h
    split at h <;> cases h <;>
      exact .inr (.inr ⟨fun _ => rfl, rfl, rfl, nofun, nofun, nofun⟩)
  | flushGuard =>
    rw [putStep] at h
    split_ifs at h <;> cases h <;>
      exact .inr (.inr ⟨fun _ => rfl, rfl, rfl, nofun, nofun, nofun⟩)
  | release done =>
    cases done <;> cases h <;>
      exact .inr (.inr ⟨hcounter 0, rfl, rfl, nofun, nofun, nofun⟩)
  | reload | flushEpoch | flushSwap | flushBump | flushUnlock =>
    cases h
    exact .inr (.inr ⟨fun _ => rfl, rfl, rfl, nofun, nofun, nofun⟩)

/-- The part that concerns the flush: the swap makes the next table current and
the old one pending, the last stage starts `_flush_inner`, and nothing else
touches the pending tables. -/
theorem putStep_flush (h : putStep t slot choice g key value i pc = (g', i', pc')) :
    g'.ssts = g.ssts ∧
    ((∃ epoch, pc = .flushSwap epoch ∧ pc' = some (.flushBump g.table) ∧
        g'.table = g.table + 1 ∧ g'.stages = g.stages ∧
        g'.pendingFlushes = g.pendingFlushes ++ [(epoch, g.table)]) ∨
      (∃ j, pc = .flushUnlock j ∧ pc' = some (.release false) ∧ g'.table = g.table ∧
        g'.pendingFlushes = g.pendingFlushes ∧
        g'.stages = Function.update g.stages j (.draining 0)) ∨
      (g'.table = g.table ∧ g'.pendingFlushes = g.pendingFlushes ∧ g'.stages = g.stages ∧
        (∀ j, pc' ≠ some (.flushBump j)) ∧
        ∀ j, pc' = some (.flushUnlock j) → pc = .flushBump j)) := by
  cases pc with
  | flushSwap epoch =>
    cases h
    exact ⟨rfl, .inl ⟨epoch, rfl, rfl, rfl, rfl, rfl⟩⟩
  | flushUnlock j =>
    cases h
    exact ⟨rfl, .inr (.inl ⟨j, rfl, rfl, rfl, rfl, rfl⟩)⟩
  | flushBump j =>
    cases h
    refine ⟨rfl, .inr (.inr ⟨rfl, rfl, rfl, nofun, fun j' hj => ?_⟩)⟩
    cases hj
    rfl
  | announced =>
    cases h
    refine ⟨rfl, .inr (.inr ⟨rfl, rfl, rfl, fun j => ?_, fun j => ?_⟩)⟩ <;> split_ifs <;> nofun
  | admitted | drawn | inserted =>
    cases choice <;> cases h <;> exact ⟨rfl, .inr (.inr ⟨rfl, rfl, rfl, nofun, nofun⟩)⟩
  | flushLock =>
    rw [putStep] at h
    split at h <;> cases h <;> exact ⟨rfl, .inr (.inr ⟨rfl, rfl, rfl, nofun, nofun⟩)⟩
  | flushGuard =>
    rw [putStep] at h
    split_ifs at h <;> cases h <;> exact ⟨rfl, .inr (.inr ⟨rfl, rfl, rfl, nofun, nofun⟩)⟩
  | release done =>
    cases done <;> cases h <;> exact ⟨rfl, .inr (.inr ⟨rfl, rfl, rfl, nofun, nofun⟩)⟩
  | start | refused | reload | flushEpoch | flushFreeze =>
    cases h
    exact ⟨rfl, .inr (.inr ⟨rfl, rfl, rfl, nofun, nofun⟩)⟩

/-- The part that concerns the return: a call returns from its release, which it
reaches with the entry inserted and the table within budget. -/
theorem putStep_return (h : putStep t slot choice g key value i pc = (g', i', pc')) :
    (pc = .release true ∧ pc' = none ∧ g'.returned = g.returned ++ [(key, value)]) ∨
    (g'.returned = g.returned ∧ (pc' = some (.release true) → pc = .inserted ∧ i' = i)) := by
  cases pc with
  | release done =>
    cases done <;> cases h
    · exact .inr ⟨rfl, nofun⟩
    · exact .inl ⟨rfl, rfl, rfl⟩
  | inserted =>
    cases h
    exact .inr ⟨rfl, fun _ => ⟨rfl, rfl⟩⟩
  | announced =>
    cases h
    refine .inr ⟨rfl, ?_⟩
    split_ifs <;> nofun
  | admitted | drawn => cases choice <;> cases h <;> exact .inr ⟨rfl, nofun⟩
  | flushLock =>
    rw [putStep] at h
    split at h <;> cases h <;> exact .inr ⟨rfl, nofun⟩
  | flushGuard =>
    rw [putStep] at h
    split_ifs at h <;> cases h <;> exact .inr ⟨rfl, nofun⟩
  | start | refused | reload | flushEpoch | flushFreeze | flushSwap | flushBump | flushUnlock =>
    cases h
    exact .inr ⟨rfl, nofun⟩

/-! ### Where the threads may be -/

/-- The stages of `_flush` under the flush mutex. -/
def PutPc.holdsMutex : PutPc → Bool
  | .flushGuard | .flushEpoch | .flushFreeze _ | .flushSwap _ | .flushBump _ | .flushUnlock _ => true
  | _ => false

/-- The stages of `_flush` between the guard and the swap. -/
def PutPc.pinsTable : PutPc → Bool
  | .flushEpoch | .flushFreeze _ | .flushSwap _ => true
  | _ => false

theorem PutPc.holdsMutex_of_pinsTable (h : pc.pinsTable = true) : pc.holdsMutex = true := by
  cases pc <;> first | rfl | cases h

/-- Where thread `t` may be in a `put_async` on table `i`. -/
structure PutOk (t : Fin n) (g : SharedState n K) (i : ℕ) (pc : PutPc) : Prop where
  le : i ≤ g.table
  mutex : pc.holdsMutex = true → g.flushMutex = some t
  current : pc.pinsTable = true → i = g.table
  frozen : ∀ epoch, pc = .flushSwap epoch → (g.tables i).frozen = true

structure ThreadOk (t : Fin n) (g : SharedState n K) (l : ThreadState K) : Prop where
  putRef_le : ∀ i, l.putRef = some i → i ≤ g.table
  put : ∀ key value i pc, l.call = .put key value i pc → PutOk t g i pc

/-- Every table that is no longer current is frozen. -/
def Sealed (g : SharedState n K) : Prop := ∀ i < g.table, (g.tables i).frozen = true

theorem Sealed.le_of_not_frozen (h : Sealed g) (hi : (g.tables i).frozen = false) :
    g.table ≤ i := by
  by_contra hlt
  have hfrozen := h i (not_le.mp hlt)
  rw [hi] at hfrozen
  cases hfrozen

theorem PutOk.of_le (hi : i ≤ g.table) (hpc : pc.holdsMutex = false) : PutOk t g i pc := by
  refine ⟨hi, fun h => ?_, fun h => ?_, fun epoch h => ?_⟩
  · exact absurd h (by simp [hpc])
  · exact absurd (PutPc.holdsMutex_of_pinsTable h) (by simp [hpc])
  · subst h
    cases hpc

theorem PutOk.next (h : PutOk t g i pc) : i ≤ g.table ∧ ∀ q, some pc = some q → PutOk t g i q := by
  refine ⟨h.le, fun q hq => ?_⟩
  obtain rfl := some.inj hq
  exact h

section Put

variable {t : Fin n} {slot : ℕ} {choice : Bool} {g g' : SharedState n K} {key : K}
  {value : Bytes} {i i' : ℕ} {pc : PutPc} {pc' : Option PutPc}

theorem putStep_mutex (hok : PutOk t g i pc)
    (h : putStep t slot choice g key value i pc = (g', i', pc')) {u : Fin n} (hu : u ≠ t)
    (hmutex : g.flushMutex = some u) : g'.flushMutex = some u ∧ g'.table = g.table := by
  have hpc : pc.holdsMutex = false := by
    by_contra hpc
    have ht := hok.mutex (by simpa using hpc)
    exact hu (some.inj (hmutex.symm.trans ht))
  obtain rfl : (putStep t slot choice g key value i pc).1 = g' := congrArg Prod.fst h
  cases pc with
  | start | announced | refused | reload | inserted => exact ⟨hmutex, rfl⟩
  | admitted | drawn => cases choice <;> exact ⟨hmutex, rfl⟩
  | flushLock =>
    rw [putStep, hmutex]
    exact ⟨hmutex, rfl⟩
  | release done => cases done <;> exact ⟨hmutex, rfl⟩
  | flushGuard | flushEpoch | flushFreeze | flushSwap | flushBump | flushUnlock => cases hpc

theorem putStep_ok (hok : PutOk t g i pc)
    (h : putStep t slot choice g key value i pc = (g', i', pc')) :
    i' ≤ g'.table ∧ ∀ q, pc' = some q → PutOk t g' i' q := by
  have hle := hok.le
  cases pc with
  | start | refused | flushUnlock =>
    cases h
    exact PutOk.next (.of_le hle rfl)
  | announced =>
    cases h
    exact PutOk.next (.of_le hle (by split_ifs <;> rfl))
  | reload =>
    cases h
    exact PutOk.next (.of_le le_rfl rfl)
  | admitted | drawn | inserted =>
    cases choice <;> cases h <;> exact PutOk.next (.of_le hle rfl)
  | flushLock =>
    rw [putStep] at h
    split at h <;> cases h
    · exact PutOk.next (.of_le hle rfl)
    · exact PutOk.next ⟨hle, fun _ => rfl, nofun, nofun⟩
  | flushGuard =>
    rw [putStep] at h
    split_ifs at h with hne <;> cases h
    · exact PutOk.next (.of_le hle rfl)
    · exact PutOk.next ⟨hle, fun _ => hok.mutex rfl, fun _ => (not_not.mp hne).symm, nofun⟩
  | flushEpoch =>
    cases h
    exact PutOk.next ⟨hle, fun _ => hok.mutex rfl, fun _ => hok.current rfl, nofun⟩
  | flushFreeze epoch =>
    cases h
    refine PutOk.next ⟨hle, fun _ => hok.mutex rfl, fun _ => hok.current rfl, fun _ _ => ?_⟩
    rw [freezeWrites, setTable_tables, if_pos rfl]
  | flushSwap epoch =>
    cases h
    exact PutOk.next ⟨Nat.le_succ_of_le hle, fun _ => hok.mutex rfl, nofun, nofun⟩
  | flushBump flushed =>
    cases h
    exact PutOk.next ⟨hle, fun _ => hok.mutex rfl, nofun, nofun⟩
  | release done =>
    cases done <;> cases h
    · exact PutOk.next (.of_le hle rfl)
    · exact ⟨hle, nofun⟩

theorem putStep_table (hok : PutOk t g i pc)
    (h : putStep t slot choice g key value i pc = (g', i', pc')) :
    g'.table = g.table ∨ g'.table = g.table + 1 ∧ (g.tables g.table).frozen = true := by
  rcases (putStep_flush h).2 with ⟨epoch, rfl, -, htable, -⟩ | ⟨_, -, -, htable, -⟩ | ⟨htable, -⟩
  · have hfrozen := hok.frozen epoch rfl
    rw [hok.current rfl] at hfrozen
    exact .inr ⟨htable, hfrozen⟩
  · exact .inl htable
  · exact .inl htable

theorem putStep_sealed (hsealed : Sealed g) (hok : PutOk t g i pc)
    (h : putStep t slot choice g key value i pc = (g', i', pc')) : Sealed g' := by
  intro j hj
  apply (putStep_grows h).frozen
  rcases putStep_table hok h with heq | ⟨heq, hfrozen⟩
  · exact hsealed j (heq ▸ hj)
  · rcases Nat.lt_succ_iff_lt_or_eq.mp (heq ▸ hj) with hlt | rfl
    · exact hsealed j hlt
    · exact hfrozen

end Put

theorem ThreadOk.others {u : Fin n} (h : ThreadOk u g l) (hgrows : Grows g g')
    (hmutex : g.flushMutex = some u → g'.flushMutex = some u ∧ g'.table = g.table) :
    ThreadOk u g' l := by
  refine ⟨fun i hi => (h.putRef_le i hi).trans hgrows.table, fun key value i pc hcall => ?_⟩
  have hok := h.put key value i pc hcall
  refine ⟨hok.le.trans hgrows.table, fun hpc => (hmutex (hok.mutex hpc)).1, fun hpc => ?_,
    fun epoch hpc => hgrows.frozen i (hok.frozen epoch hpc)⟩
  rw [(hmutex (hok.mutex (PutPc.holdsMutex_of_pinsTable hpc))).2]
  exact hok.current hpc

/-! ### Runs -/

variable {s : State (Fin n) (SharedState n K) (ThreadState K)}

theorem threadAct_ok (hs : Holds Sealed ThreadOk s)
    (h : threadAct w t a s.shared (s.threads t) = some (g, l)) :
    Sealed g ∧ ThreadOk t g l ∧ ∀ u, u ≠ t → ThreadOk u g (s.threads u) := by
  have hgrows := threadAct_grows h
  have hown := hs.threads t
  rcases threadAct_cases h with ⟨key, value, i, -, -, hi, rfl, rfl⟩ |
    ⟨key, epoch, i, pc, -, -, -, rfl, rfl⟩ |
    ⟨choice, key, value, i, pc, i', pc', -, hcall, hput, rfl⟩ |
    ⟨choice, key, since, epoch, i, pc, epoch', i', pc', -, -, -, rfl, rfl⟩
  · have hle : i ≤ s.shared.table := by
      rcases href : (s.threads t).putRef with - | j
      · rw [hi, href]; exact le_rfl
      · rw [hi, href]; exact hown.putRef_le j href
    refine ⟨hs.shared, ⟨fun j hj => ?_, fun key' value' j pc hcall => ?_⟩, fun u _ => hs.threads u⟩
    · cases hj; exact hle
    · cases hcall; exact .of_le hle rfl
  · exact ⟨hs.shared, ⟨hown.putRef_le, nofun⟩, fun u _ => hs.threads u⟩
  · have hok := hown.put key value i pc hcall
    obtain ⟨hle, hnext⟩ := putStep_ok hok hput
    refine ⟨putStep_sealed hs.shared hok hput, ⟨fun j hj => ?_, fun key' value' j q hq => ?_⟩,
      fun u hu => (hs.threads u).others hgrows (putStep_mutex hok hput hu)⟩
    · cases hj; exact hle
    · rcases pc' with - | q'
      · cases hq
      · cases hq; exact hnext q rfl
  · refine ⟨hs.shared, ⟨hown.putRef_le, fun key' value' j q hq => ?_⟩, fun u _ => hs.threads u⟩
    rcases pc' with - | q' <;> cases hq

theorem flushAct_ok {b : FlushAct} (hs : Holds Sealed ThreadOk s)
    (h : flushAct w b s.shared = some g) : Sealed g ∧ ∀ u, ThreadOk u g (s.threads u) := by
  have hgrows := flushAct_grows h
  have hsame : g.table = s.shared.table ∧ g.flushMutex = s.shared.flushMutex := by
    rcases flushAct_cases h with ⟨i, slot, stage, -, -, -, rfl⟩ | ⟨i, ok, -, -, rfl⟩ |
      ⟨i, entries, -, -, -, rfl⟩ <;> exact ⟨rfl, rfl⟩
  refine ⟨fun i hi => hgrows.frozen i (hs.shared i (hsame.1 ▸ hi)), fun u => ?_⟩
  exact (hs.threads u).others hgrows fun hu => ⟨hsame.2.trans hu, hsame.1⟩

theorem newMemtable_ok : Holds Sealed ThreadOk (newMemtable n K) :=
  ⟨nofun, fun _ => ⟨nofun, nofun⟩⟩

/-- **In every interleaving** the tables that are no longer current are frozen,
and the thread in `_flush` owns the switch. -/
theorem memtable_step_ok {s' : State (Fin n) (SharedState n K) (ThreadState K)}
    {a : Label (Fin n) (ThreadAct K) FlushAct}
    (hs : Holds Sealed ThreadOk s) (h : (memtable n w K).step s a = some s') :
    Holds Sealed ThreadOk s' := by
  refine hs.step (C := fun _ _ => True) ?_ ?_ trivial h
  · intro s t a g l hs _ hact
    exact threadAct_ok hs hact
  · intro s b g hs _ hbackground
    exact flushAct_ok hs hbackground

/-- Thread B writes a key to table 0, finds it over budget and switches to table 1;
the epoch is yet to be bumped. -/
def fillAndSwitch (key : K) : List (Label (Fin 3) (ThreadAct K) FlushAct) :=
  [.thread threadB (.startPut key [1, 20])] ++
    threadRuns threadB [true, true, true, true, false, true, true, true, true, true]

/-- Threads C and B write a key each to table 0, which is switched and flushed. -/
def flushFirstTable (key key' : K) : List (Label (Fin 3) (ThreadAct K) FlushAct) :=
  [.thread threadC (.startPut key [1, 10])] ++
  threadRuns threadC [true, true, true, true, true, true] ++
  fillAndSwitch key' ++ threadRuns threadB [true, true, true] ++
  [.background (.scan 0), .background (.scan 0), .background (.scan 0), .background (.scan 0),
    .background (.write 0 true), .background (.publish 0)]

end HedgeDB
