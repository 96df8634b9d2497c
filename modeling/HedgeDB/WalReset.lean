/-
HedgeDB/WalReset.lean

When the WAL of a flushed table is truncated (`_flush_inner` in
`src/db/memtable.cc`, `push_new_ssts_to_l0` in `src/db/sst_manager.cc`).

After the SSTs of a table are pushed, one persist task per affected partition is
posted, and `_flush_inner` resets the WAL once all of them have counted down the
latch.  A task counts down whatever `_persist_partition_state` returned; an error
is logged.  So a WAL can be truncated while a manifest does not name the SST that
holds its data (`reset_after_failed_persist`).

`DurableOk` states when a step is harmless: a table is written when its writers
are done and its SSTs are read back, and a persist call succeeds, on a manifest that fits
its page and that no other partition needs.  Then every table whose WAL was reset is
covered by the manifests (`reset_after_durable`).
-/
import HedgeDB.IndexOps
import HedgeDB.ManifestWrites
import HedgeDB.PartitionFiles
import HedgeDB.SstReads
import HedgeDB.TableFlush

namespace HedgeDB

open Interleave List Function

variable {K : Type*} [LinearOrder K] {n : ℕ}

/-! ### The system -/

/-- The memtable, the levels of the partitions, the manifests as they were last
written successfully, by directory, and for each pushed table the partitions whose
persist task has not counted down yet.  `resets` records the tables whose WAL was
reset. -/
structure DurableState (n : ℕ) (K : Type*) [LinearOrder K] where
  mem : SharedState n K := {}
  levels : ℕ → ℕ → List (Sst K) := fun _ _ => []
  manifests : String → Option Text := fun _ => none
  persisting : ℕ → List ℕ := fun _ => []
  resets : List ℕ := []
  nextFileId : ℕ := 0

/-- The steps of `_flush_inner` on table `i`; the publication includes the push. -/
inductive DurableAct
  | flush (a : FlushAct)
  | persist (i p : ℕ) (ok : Bool)
  | reset (i : ℕ)

/-- `push_new_ssts_to_l0` on the SSTs of table `i`. -/
def pushNewSsts (i : ℕ) (ssts : List (Sst K)) (g : DurableState n K) : DurableState n K :=
  { g with
    levels := fun p => update (g.levels p) 0
      (g.levels p 0 ++ ssts.filter fun X => X.upperBound = p)
    persisting := update g.persisting i (ssts.map Sst.upperBound).dedup
    nextFileId := g.nextFileId + ssts.length }

/-- The flush epoch of a pending table. -/
def SharedState.epochOf (g : SharedState n K) (i : ℕ) : ℕ :=
  ((g.pendingFlushes.find? fun q => q.2 = i).map Prod.fst).getD 0

variable (cfg : SstManagerConfig) (numPartitionExponent w : ℕ) (part : K → ℕ)

/-- One step in the background.  A persist call is one step here: what its own steps
do to the page is the subject of `ManifestWrites`. -/
def durableAct (a : DurableAct) (g : DurableState n K) : Option (DurableState n K) :=
  match a with
  | .flush (.publish i) =>
      match g.mem.stages i, flushAct w (.publish i) g.mem with
      | .written entries, some mem =>
          match flushMemtable part g.nextFileId (g.mem.epochOf i) entries with
          | .ok ssts => some { pushNewSsts i ssts g with mem }
          | .error _ => none
      | _, _ => none
  | .flush a => (flushAct w a g.mem).map fun mem => { g with mem }
  | .persist i p ok =>
      if p ∈ g.persisting i then
        some { g with
          manifests :=
            if ok then update g.manifests (dirName p)
              (some (serializeLevels Sst.filename (levelTree cfg (g.levels p))))
            else g.manifests
          persisting := update g.persisting i ((g.persisting i).erase p) }
      else none
  | .reset i =>
      if i < g.mem.ssts.length ∧ g.persisting i = [] ∧ i ∉ g.resets then
        some { g with resets := g.resets ++ [i] }
      else none

/-- The memtable and its flushes. -/
def durable (n : ℕ) :
    System (Fin n) (DurableState n K) (ThreadState K) (ThreadAct K) DurableAct where
  act t a g l := (threadAct w t a g.mem l).map fun r => ({ g with mem := r.1 }, r.2)
  background := durableAct cfg w part

def newDurable (n : ℕ) (levels : ℕ → ℕ → List (Sst K)) (manifests : String → Option Text) :
    State (Fin n) (DurableState n K) (ThreadState K) :=
  ⟨{ levels, manifests }, fun _ => {}⟩

def memState (s : State (Fin n) (DurableState n K) (ThreadState K)) :
    State (Fin n) (SharedState n K) (ThreadState K) :=
  ⟨s.shared.mem, s.threads⟩

/-- The conditions on the steps. -/
def DurableOk (s : State (Fin n) (DurableState n Bytes) (ThreadState Bytes)) :
    Label (Fin n) (ThreadAct Bytes) DurableAct → Prop
  | .background (.flush (.write i true)) => WritersDone (memState s) i ∧
      FlushReadsBack numPartitionExponent (s.shared.mem.tables i).contents.entries
  | .background (.persist _ p ok) =>
      ok = true ∧ ManifestFits Sst.filename (levelTree cfg (s.shared.levels p)) ∧
        ∀ q ∈ partitionIds numPartitionExponent, q ≠ p → dirName q = dirName p →
          s.shared.levels q 0 = []
  | _ => True

instance (s : State (Fin n) (DurableState n Bytes) (ThreadState Bytes)) :
    (a : Label (Fin n) (ThreadAct Bytes) DurableAct) →
      Decidable (DurableOk cfg numPartitionExponent s a)
  | .background (.flush (.write _ true)) => inferInstanceAs (Decidable (_ ∧ _))
  | .background (.persist _ _ _) => inferInstanceAs
      (Decidable (_ ∧ _ ∧ ∀ q ∈ partitionIds numPartitionExponent, _ → _ → _))
  | .background (.flush (.write _ false)) | .background (.flush (.scan _))
  | .background (.flush (.publish _)) | .background (.reset _) | .thread _ _ => isTrue trivial

/-- Every entry of table `i` is, in its newest version, in an SST that is read from its
pages and that the manifest of its partition names. -/
def Covered (part : Bytes → ℕ) (g : DurableState n Bytes) (i : ℕ) : Prop :=
  ∀ k entry, (g.mem.tables i).contents.get k = some entry →
    ∃ X ∈ g.levels (part k) 0, entry.toRecord ∈ X.entries ∧ X.ReadFromPages ∧
      ∃ page, g.manifests (dirName (part k)) = some page ∧ NamedIn cfg page X.filename

/-! ### What every step keeps -/

section Invariant

variable {cfg w} {e : ℕ} {g g' : DurableState n Bytes}
  {s : State (Fin n) (DurableState n Bytes) (ThreadState Bytes)}

/-- The newest versions of a pushed table are in SSTs of level 0 that are read from their
pages, each named by its manifest unless its persist task is still to count down. -/
def Pushed (cfg : SstManagerConfig) (part : Bytes → ℕ) (g : DurableState n Bytes) (i : ℕ) : Prop :=
  ∀ k entry, (g.mem.tables i).contents.get k = some entry →
    ∃ X ∈ g.levels (part k) 0, entry.toRecord ∈ X.entries ∧ X.ReadFromPages ∧
      (part k ∈ g.persisting i ∨
        ∃ page, g.manifests (dirName (part k)) = some page ∧ NamedIn cfg page X.filename)

structure DurableInv (cfg : SstManagerConfig) (numPartitionExponent : ℕ)
    (g : DurableState n Bytes) : Prop where
  sealed : Sealed g.mem
  flush : FlushOk g.mem
  flushed : FlushedAll (FlushReadsBack numPartitionExponent) g.mem
  pushed : ∀ i < g.mem.ssts.length,
    Pushed cfg (findMatchingPartitionForKey numPartitionExponent) g i
  resets : ∀ i ∈ g.resets, i < g.mem.ssts.length ∧ g.persisting i = []

structure DurableThread (t : Fin n) (g : DurableState n Bytes) (l : ThreadState Bytes) : Prop where
  thread : ThreadOk t g.mem l
  admitted : AdmittedOk t g.mem l

theorem memState_ok (h : Holds (DurableInv cfg e) DurableThread s) :
    Holds Sealed ThreadOk (memState s) ∧
      Holds FlushOk AdmittedOk (memState s) :=
  ⟨⟨h.shared.sealed, fun t => (h.threads t).thread⟩,
    ⟨h.shared.flush, fun t => (h.threads t).admitted⟩⟩

theorem DurableInv.setMem {mem : SharedState n Bytes} (h : DurableInv cfg e g)
    (hsealed : Sealed mem) (hflush : FlushOk mem) (hflushed : FlushedAll (FlushReadsBack e) mem)
    (hssts : mem.ssts = g.mem.ssts)
    (hcontents : ∀ j < g.mem.ssts.length, (mem.tables j).contents = (g.mem.tables j).contents) :
    DurableInv cfg e { g with mem } where
  sealed := hsealed
  flush := hflush
  flushed := hflushed
  pushed i hi k entry hget := by
    have hi' : i < g.mem.ssts.length := hssts ▸ hi
    exact h.pushed i hi' k entry (hcontents i hi' ▸ hget)
  resets i hi := ⟨hssts.symm ▸ (h.resets i hi).1, (h.resets i hi).2⟩

variable {i : ℕ}

omit [LinearOrder K] in
theorem namedIn_of_fits {levels : ℕ → List (Sst K)} {X : Sst K}
    (hfits : ManifestFits Sst.filename (levelTree cfg levels)) (hi : i < cfg.maxNumLevels)
    (hX : X ∈ levels i) :
    NamedIn cfg (serializeLevels Sst.filename (levelTree cfg levels)) X.filename := by
  have hkept : keptLevels Sst.filename pageSizeInBytes (levelTree cfg levels) =
      levelTree cfg levels := by
    have := (keptLevels_eq_iff id (fun _ h => h) _ _).mpr hfits
    rwa [map_id, map_id] at this
  have hread : parseManifestAndLoadSsts .ok (levelTree cfg levels).length
      (serializeLevels Sst.filename (levelTree cfg levels)) =
        .ok ((levelTree cfg levels).map (·.map Sst.filename)) := by
    rw [parse_serializeLevels _ (fun _ _ X _ => X.generatedName_filename) fun _ _ _ _ => rfl, hkept]
  rw [levelTree_length] at hread
  refine ⟨_, hread, (levels i).map Sst.filename, ?_, mem_map_of_mem hX⟩
  rw [levelTree, map_map]
  exact mem_map.mpr ⟨i, mem_range.mpr hi, rfl⟩

theorem DurableInv.push {entries : List (MemtableEntry Bytes)} {ssts : List (Sst Bytes)}
    {mem : SharedState n Bytes} {epoch : ℕ} (h : DurableInv cfg e g) (hsealed : Sealed mem)
    (hflush : FlushOk mem) (hflushed : FlushedAll (FlushReadsBack e) mem)
    (hstage : g.mem.stages i = .written entries)
    (hlen : g.mem.ssts.length = i) (hssts : mem.ssts = g.mem.ssts ++ [entries])
    (htables : mem.tables = g.mem.tables)
    (hok : flushMemtable (findMatchingPartitionForKey e) g.nextFileId epoch entries = .ok ssts) :
    DurableInv cfg e { pushNewSsts i ssts g with mem } := by
  have hlevels : ∀ p X, X ∈ g.levels p 0 → X ∈ (pushNewSsts i ssts g).levels p 0 := by
    intro p X hX
    show X ∈ update (g.levels p) 0 _ 0
    rw [update_self]
    exact mem_append_left _ hX
  have hpersisting : ∀ j, j ≠ i → (pushNewSsts i ssts g).persisting j = g.persisting j :=
    fun j hj => update_of_ne hj ..
  have hlength : mem.ssts.length = i + 1 := by rw [hssts, length_append, hlen]; rfl
  refine ⟨hsealed, hflush, hflushed, fun j hj k entry hget => ?_, fun j hj => ?_⟩
  · change j < mem.ssts.length at hj
    change (mem.tables j).contents.get k = some entry at hget
    rw [htables] at hget
    rcases Nat.lt_succ_iff_lt_or_eq.mp (hlength ▸ hj) with hlt | rfl
    · obtain ⟨X, hX, hrecord, hread, hnamed⟩ := h.pushed j (hlen.symm ▸ hlt) k entry hget
      exact ⟨X, hlevels _ X hX, hrecord, hread,
        hnamed.imp_left fun hp => (hpersisting j hlt.ne).symm ▸ hp⟩
    · -- the newest version of every key of this table is in one of the new SSTs
      have hentries := h.flush.written j entries hstage
      rw [Skiplist.get_eq_lookup, ← hentries] at hget
      obtain rfl := (KeyedList.lookup_mem hget).2
      have hsorted : entries.Pairwise fun a b => memtableCmp a b = true :=
        hentries ▸ (g.mem.tables j).contents.sorted
      obtain ⟨X, hX, hbound, hrecord⟩ := flushMemtable_writes hsorted hok hget
      refine ⟨X, ?_, hrecord, (h.flushed.written j entries hstage).readFromPages hsorted hok X hX,
        .inl ?_⟩
      · show X ∈ update (g.levels (findMatchingPartitionForKey e entry.key)) 0 _ 0
        rw [update_self]
        exact mem_append_right _ (mem_filter.mpr ⟨hX, decide_eq_true hbound⟩)
      · show findMatchingPartitionForKey e entry.key ∈ update g.persisting j _ j
        rw [update_self, mem_dedup]
        exact hbound ▸ mem_map_of_mem hX
  · obtain ⟨hlt, hnil⟩ := h.resets j hj
    have hne : j ≠ i := (hlen ▸ hlt).ne
    exact ⟨hlength.symm ▸ Nat.lt_succ_of_lt (hlen ▸ hlt), (hpersisting j hne).trans hnil⟩

theorem DurableInv.persist {p : ℕ} (h : DurableInv cfg e g) (hcfg : 1 ≤ cfg.maxNumLevels)
    (he : e ≤ 16) (hfits : ManifestFits Sst.filename (levelTree cfg (g.levels p)))
    (halone : ∀ q ∈ partitionIds e, q ≠ p → dirName q = dirName p →
      g.levels q 0 = []) :
    DurableInv cfg e { g with
      manifests := update g.manifests (dirName p)
        (some (serializeLevels Sst.filename (levelTree cfg (g.levels p))))
      persisting := update g.persisting i ((g.persisting i).erase p) } := by
  refine ⟨h.sealed, h.flush, h.flushed, fun j hj k entry hget => ?_,
    fun j hj => ⟨(h.resets j hj).1, ?_⟩⟩
  · obtain ⟨X, hX, hrecord, hread, hnamed⟩ := h.pushed j hj k entry hget
    refine ⟨X, hX, hrecord, hread, ?_⟩
    by_cases hp : findMatchingPartitionForKey e k = p
    · subst hp
      exact .inr ⟨_, update_self .., namedIn_of_fits hfits hcfg hX⟩
    · -- the page of another partition, which has its own directory
      have hdir : dirName (findMatchingPartitionForKey e k) ≠ dirName p := by
        intro hdir
        rw [halone _ (findMatchingPartitionForKey_mem he k) hp hdir] at hX
        exact absurd hX not_mem_nil
      refine hnamed.imp (fun hmem => ?_) fun ⟨page, hpage, hname⟩ => ⟨page, ?_, hname⟩
      · show findMatchingPartitionForKey e k ∈ update g.persisting i _ j
        rw [update_apply]
        split
        · next hji => exact (mem_erase_of_ne hp).mpr (hji ▸ hmem)
        · exact hmem
      · exact (update_of_ne hdir ..).trans hpage
  · show update g.persisting i _ j = []
    rw [update_apply]
    split
    · next hji =>
      rw [← hji, (h.resets j hj).2]
      rfl
    · exact (h.resets j hj).2

theorem durableAct_ok {b : DurableAct} (hcfg : 1 ≤ cfg.maxNumLevels) (he : e ≤ 16)
    (hs : Holds (DurableInv cfg e) DurableThread s)
    (hc : DurableOk cfg e s (.background b))
    (h : durableAct cfg w (findMatchingPartitionForKey e) b s.shared = some g) :
    DurableInv cfg e g ∧ ∀ u, DurableThread u g (s.threads u) := by
  obtain ⟨hbase, hflush⟩ := memState_ok hs
  have hinv := hs.shared
  -- an action of `_flush_inner` on the memtable
  have hmem : ∀ {a mem}, b = .flush a → flushAct w a s.shared.mem = some mem →
      Sealed mem ∧ FlushOk mem ∧ FlushedAll (FlushReadsBack e) mem ∧
        ∀ u, ThreadOk u mem (s.threads u) ∧ AdmittedOk u mem (s.threads u) := by
    intro a mem hb hact
    obtain ⟨hsealed, hthreads⟩ := flushAct_ok hbase hact
    have hwrite : ∀ i, a = .write i true → WritersDone (memState s) i ∧
        FlushReadsBack e (s.shared.mem.tables i).contents.entries := by
      rintro i rfl
      subst hb
      exact hc
    obtain ⟨hok, hadmitted⟩ := flushAct_writers hflush (fun i hi => (hwrite i hi).1) hact
    exact ⟨hsealed, hok, hinv.flushed.flush (fun i hi => (hwrite i hi).2) hact,
      fun u => ⟨hthreads u, hadmitted u⟩⟩
  cases b with
  | flush a =>
    cases a with
    | publish i =>
      rw [durableAct] at h
      split at h
      · next entries mem hstage hact =>
        split at h
        · next ssts hok =>
          cases h
          obtain ⟨hsealed, hok', hflushed, hthreads⟩ := hmem rfl hact
          rcases flushAct_cases hact with ⟨_, _, _, hb, -⟩ | ⟨_, _, hb, -⟩ |
            ⟨j, entries', hb, hstage', hlen, rfl⟩
          · cases hb
          · cases hb
          · cases hb
            rw [hstage] at hstage'
            cases hstage'
            exact ⟨hinv.push hsealed hok' hflushed hstage hlen rfl rfl hok,
              fun u => ⟨(hthreads u).1, (hthreads u).2⟩⟩
        · cases h
      · cases h
    | scan i =>
      obtain ⟨mem, hact, rfl⟩ := Option.map_eq_some_iff.mp h
      obtain ⟨hsealed, hok, hflushed, hthreads⟩ := hmem rfl hact
      rcases flushAct_cases hact with ⟨_, _, _, -, -, -, rfl⟩ | ⟨_, _, hb, -⟩ | ⟨_, _, hb, -⟩
      · exact ⟨hinv.setMem hsealed hok hflushed rfl fun _ _ => rfl,
          fun u => ⟨(hthreads u).1, (hthreads u).2⟩⟩
      · cases hb
      · cases hb
    | write i ok =>
      obtain ⟨mem, hact, rfl⟩ := Option.map_eq_some_iff.mp h
      obtain ⟨hsealed, hok, hflushed, hthreads⟩ := hmem rfl hact
      rcases flushAct_cases hact with ⟨_, _, _, hb, -⟩ | ⟨_, _, -, -, rfl⟩ | ⟨_, _, hb, -⟩
      · cases hb
      · exact ⟨hinv.setMem hsealed hok hflushed rfl fun _ _ => rfl,
          fun u => ⟨(hthreads u).1, (hthreads u).2⟩⟩
      · cases hb
  | persist i p ok =>
    obtain ⟨rfl, hfits, halone⟩ := hc
    rw [durableAct] at h
    split at h
    · cases h
      exact ⟨hinv.persist hcfg he hfits halone,
        fun u => ⟨(hs.threads u).thread, (hs.threads u).admitted⟩⟩
    · cases h
  | reset i =>
    rw [durableAct] at h
    split at h
    · next hguard =>
      cases h
      refine ⟨⟨hinv.sealed, hinv.flush, hinv.flushed, hinv.pushed, fun j hj => ?_⟩,
        fun u => ⟨(hs.threads u).thread, (hs.threads u).admitted⟩⟩
      rcases mem_append.mp hj with hold | hnew
      · exact hinv.resets j hold
      · rw [mem_singleton.mp hnew]
        exact ⟨hguard.1, hguard.2.1⟩
    · cases h

/-- **A WAL is reset only after its data is durable**: if the steps of a run meet the
conditions, every table whose WAL was reset is covered by the manifests. -/
theorem reset_after_durable (hcfg : 1 ≤ cfg.maxNumLevels) {numPartitionExponent : ℕ}
    (he : numPartitionExponent ≤ 16)
    {levels : ℕ → ℕ → List (Sst Bytes)} {manifests : String → Option Text}
    {as : List (Label (Fin n) (ThreadAct Bytes) DurableAct)}
    (hall : Run.AllSteps (durable cfg w (findMatchingPartitionForKey numPartitionExponent) n).step
      (DurableOk cfg numPartitionExponent) (newDurable n levels manifests) as)
    (hrun : Run.exec (durable cfg w (findMatchingPartitionForKey numPartitionExponent) n).step
      (newDurable n levels manifests) as = some s) :
    ∀ i ∈ s.shared.resets,
      Covered cfg (findMatchingPartitionForKey numPartitionExponent) s.shared i := by
  have hstart : Holds (DurableInv cfg numPartitionExponent) DurableThread
      (newDurable (K := Bytes) n levels manifests) :=
    ⟨⟨newMemtable_ok.shared, newMemtable_flushOk.shared, ⟨nofun, nofun⟩, nofun, nofun⟩,
      fun t => ⟨newMemtable_ok.threads t, newMemtable_flushOk.threads t⟩⟩
  have hholds : Holds (DurableInv cfg numPartitionExponent) DurableThread s := by
    refine exec_holds ?_ ?_ hstart hall hrun
    · intro s t a g l hs _ hact
      obtain ⟨⟨mem, l'⟩, hmem, heq⟩ := Option.map_eq_some_iff.mp hact
      cases heq
      obtain ⟨hbase, hflush⟩ := memState_ok hs
      obtain ⟨hsealed, hown, hothers⟩ := threadAct_ok hbase hmem
      obtain ⟨hok, hadmitted, hothers'⟩ := threadAct_flushOk hbase hflush hmem
      obtain ⟨hssts, hcontents⟩ := threadAct_published hflush hmem
      exact ⟨hs.shared.setMem hsealed hok (hs.shared.flushed.thread hmem) hssts hcontents,
        ⟨hown, hadmitted⟩, fun u hu => ⟨hothers u hu, hothers' u hu⟩⟩
    · intro s b g hs hc hbackground
      exact durableAct_ok hcfg he hs hc hbackground
  intro i hi k entry hget
  obtain ⟨hlt, hnil⟩ := hholds.shared.resets i hi
  obtain ⟨X, hX, hrecord, hread, hnamed⟩ := hholds.shared.pushed i hlt k entry hget
  rw [hnil] at hnamed
  exact ⟨X, hX, hrecord, hread, hnamed.resolve_left not_mem_nil⟩

end Invariant

/-- The labels of a run of the memtable, in the system with the partitions. -/
def durableLabel :
    Label (Fin n) (ThreadAct K) FlushAct →
      Label (Fin n) (ThreadAct K) DurableAct
  | .thread t a => .thread t a
  | .background b => .background (.flush b)

/-- A table is flushed, its one persist task counts down and the WAL is reset. -/
def flushAndReset (ok : Bool) : List (Label (Fin 3) (ThreadAct Bytes) DurableAct) :=
  (flushFirstTable [0, 1] [0, 2]).map durableLabel ++
    [.background (.persist 0 65535 ok), .background (.reset 0)]

theorem reset_after_durable_example :
    Run.AllSteps (durable {} 3 (findMatchingPartitionForKey 0) 3).step (DurableOk {} 0)
        (newDurable 3 (fun _ _ => []) fun _ => none) (flushAndReset true) ∧
      ∃ s, Run.exec (durable {} 3 (findMatchingPartitionForKey 0) 3).step
          (newDurable 3 (fun _ _ => []) fun _ => none) (flushAndReset true) = some s ∧
        s.shared.resets = [0] ∧ Covered {} (findMatchingPartitionForKey 0) s.shared 0 := by
  have hall : Run.AllSteps (durable {} 3 (findMatchingPartitionForKey 0) 3).step
      (DurableOk {} 0) (newDurable 3 (fun _ _ => []) fun _ => none)
      (flushAndReset true) := by
    decide +kernel
  obtain ⟨s, hrun, hresets⟩ :
      ∃ s, Run.exec (durable {} 3 (findMatchingPartitionForKey 0) 3).step
          (newDurable 3 (fun _ _ => []) fun _ => none) (flushAndReset true) = some s ∧
        s.shared.resets = [0] :=
    ⟨_, rfl, rfl⟩
  refine ⟨hall, s, hrun, hresets, ?_⟩
  exact reset_after_durable (by decide) (by decide) hall hrun 0 (by simp [hresets])

/-- The persist call of the flush fails, its task counts the latch down, and the WAL is
reset: no manifest names the data of the table. -/
theorem reset_after_failed_persist :
    ∃ s, Run.exec (durable {} 3 (findMatchingPartitionForKey 0) 3).step
        (newDurable 3 (fun _ _ => []) fun _ => none) (flushAndReset false) = some s ∧
      0 ∈ s.shared.resets ∧ ¬ Covered {} (findMatchingPartitionForKey 0) s.shared 0 := by
  obtain ⟨s, hrun, hresets, hget, hmanifest⟩ :
      ∃ s, Run.exec (durable {} 3 (findMatchingPartitionForKey 0) 3).step
          (newDurable 3 (fun _ _ => []) fun _ => none) (flushAndReset false) = some s ∧
        s.shared.resets = [0] ∧
        (s.shared.mem.tables 0).contents.get [0, 1] = some ⟨[0, 1], 0, [1, 10]⟩ ∧
        s.shared.manifests (dirName 65535) = none :=
    ⟨_, rfl, rfl, rfl, rfl⟩
  refine ⟨s, hrun, by simp [hresets], fun hcovered => ?_⟩
  obtain ⟨-, -, -, -, page, hpage, -⟩ := hcovered [0, 1] _ hget
  have hpart : findMatchingPartitionForKey 0 [0, 1] = 65535 := by decide
  rw [hpart, hmanifest] at hpage
  cases hpage

end HedgeDB
