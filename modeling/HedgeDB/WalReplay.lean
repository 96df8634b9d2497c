/-
HedgeDB/WalReplay.lean

Replaying the WAL files a run left behind (`memtable::put_async`,
`memtable::replay_wal` in `src/db/memtable.cc`, `src/db/wal.cc`).

A `put_async` takes the room for its value from the arena of its table and writer
slot and logs the entry in the WAL file of table and slot.  The files of all tables that
are not flushed yet are replayed into one table, with all values from its first arena.
Each arena has the memory budget of the whole memtable, so several writer slots or several
tables can log more than one arena takes (`replay_exhausts_arena`).

`replay_completes_iff`: as long as the numbers of every entry fit their fields, all
a crash can leave of the files is replayed exactly if the logged values, rounded up
and packed one after the other in the order of their sequence numbers, fit the
extents of one arena.

A `put_async` call whose entry is not written whole fails, and that a file is read whole
is a hypothesis (`ReadsWhole`).  A WAL file is named by its table and its writer slot; which
of the reusable WALs the table drew makes no difference.
-/
import HedgeDB.WalFile
import HedgeDB.WalReset

namespace HedgeDB

open Interleave NextFit ByteCodec List Function

variable {n : ℕ}

/-! ### The system -/

/-- An entry of the WAL file of a table and a writer slot. -/
structure LogLine where
  table : ℕ
  slot : ℕ
  entry : WalEntry Bytes
  deriving DecidableEq, Repr

/-- What the threads share, with the buffers and the WAL files: the arenas by table
and slot, the `bytes_written` of each table, for each thread the number its call
has drawn and not logged yet, and what is in the files, in the order in which it was
appended. -/
structure LoggedState (n : ℕ) where
  db : DurableState n Bytes
  arenas : ℕ → ℕ → Arena
  bytesWritten : ℕ → ℕ := fun _ => 0
  seqNrs : Fin n → Option ℕ := fun _ => none
  log : List LogLine := []

namespace LoggedState

variable (memoryBudgetCap w : ℕ) (g : LoggedState n)

/-- `wal::append`, by thread `t` for table `i`.  The WAL of a table that was reset is
gone. -/
def append (t : Fin n) (i : ℕ) (key value : Bytes) : Option (LoggedState n) :=
  match g.seqNrs t with
  | some seqNr =>
      if i ∈ g.db.resets then none
      else some { g with
        log := g.log ++ [⟨i, t.val % w, seqNr, key, value⟩]
        seqNrs := update g.seqNrs t none }
  | none => none

/-- What the action of `put_async` at `pc` does to arenas, byte counts and files,
before it touches the rest; `none` if the buffers do not answer with `choice`. -/
def bufferStep (t : Fin n) (choice : Bool) (key value : Bytes) (i : ℕ) :
    PutPc → Option (LoggedState n)
  | .admitted =>
      let (ptr, arena) := (g.arenas i (t.val % w)).allocateMany value.length valueDataAlignment
      if choice = ptr.isSome then
        some { g with
          arenas := update g.arenas i (update (g.arenas i) (t.val % w) arena)
          seqNrs := update g.seqNrs t (if choice then some g.db.mem.seqNr else none) }
      else none
  | .inserted =>
      if choice = decide (g.bytesWritten i ≤ memoryBudgetCap) then
        let g := { g with
          bytesWritten := update g.bytesWritten i
            (g.bytesWritten i + (key.length + value.length)) }
        if choice then g.append w t i key value else some g
      else none
  | _ => some g

end LoggedState

def loggedAct (memoryBudgetCap w : ℕ) (t : Fin n) (a : ThreadAct Bytes) (g : LoggedState n)
    (l : ThreadState Bytes) : Option (LoggedState n × ThreadState Bytes) :=
  let buffered :=
    match a, l.call with
    | .run choice, .put key value i pc => g.bufferStep memoryBudgetCap w t choice key value i pc
    | _, _ => some g
  buffered.bind fun g' => (threadAct w t a g.db.mem l).map fun r =>
    ({ g' with db := { g.db with mem := r.1 } }, r.2)

/-- One step in the background; a reset empties the WAL of its table. -/
def loggedBackground (cfg : SstManagerConfig) (w : ℕ) (part : Bytes → ℕ) (b : DurableAct)
    (g : LoggedState n) : Option (LoggedState n) :=
  (durableAct cfg w part b g.db).map fun db =>
    match b with
    | .reset i => { g with db, log := g.log.filter fun line => line.table ≠ i }
    | _ => { g with db }

/-- The memtable with its buffers and WAL files. -/
def logged (cfg : SstManagerConfig) (memoryBudgetCap w : ℕ) (part : Bytes → ℕ) (n : ℕ) :
    System (Fin n) (LoggedState n) (ThreadState Bytes) (ThreadAct Bytes) DurableAct where
  act := loggedAct memoryBudgetCap w
  background := loggedBackground cfg w part

def newLogged (n memoryBudgetCap : ℕ) (levels : ℕ → ℕ → List (Sst Bytes))
    (manifests : String → Option Text) :
    State (Fin n) (LoggedState n) (ThreadState Bytes) :=
  ⟨{ db := { levels, manifests }
     arenas := fun _ _ => Arena.make memoryBudgetCap Arena.defaultExtentBytes },
    fun _ => {}⟩

/-! ### What a crash leaves -/

def LoggedState.fileEntries (g : LoggedState n) (file : ℕ × ℕ) : List (WalEntry Bytes) :=
  (g.log.filter fun line => (line.table, line.slot) = file).map LogLine.entry

/-- What a crash can leave of the WAL files: whole entries, from the start of each
file.  The files are found in any order and under any name. -/
def CrashImage (g : LoggedState n) (image : List (String × List (WalEntry Bytes))) : Prop :=
  ∃ files : List (ℕ × ℕ), files.Nodup ∧
    Forall₂ (fun file f => f.2 <+: g.fileEntries file) files image

/-- `replay_wal` completes on the files and inserts every entry it does not skip. -/
def Replays (checksum : Bytes → UInt32) (pread : Bytes → Bytes) (config : LoadConfig Bytes)
    (skipUpToSeqNr : Option ℕ) (image : List (String × List (WalEntry Bytes)))
    (db : Database Bytes) : Prop :=
  ∃ db', replayFiles checksum pread config skipUpToSeqNr
      (image.map fun f => (f.1, walFileBytes checksum f.2)) db = .ok db' ∧
    ∀ e ∈ image.flatMap Prod.snd, skips skipUpToSeqNr e = false →
      ∃ seq, ⟨e.key, seq, e.value⟩ ∈ db'.table.entries

/-- The conditions on the steps: the numbers of an entry fit their fields. -/
def EntriesFit (s : State (Fin n) (LoggedState n) (ThreadState Bytes)) :
    Label (Fin n) (ThreadAct Bytes) DurableAct → Prop
  | .thread _ (.startPut key value) =>
      (1 ≤ key.length ∧ key.length ≤ maxKeyLen) ∧ value.length < 2 ^ 16
  | .thread _ (.run _) => s.shared.db.mem.seqNr < 2 ^ 64
  | _ => True

instance (s : State (Fin n) (LoggedState n) (ThreadState Bytes)) :
    (a : Label (Fin n) (ThreadAct Bytes) DurableAct) → Decidable (EntriesFit s a)
  | .thread _ (.startPut _ _) => inferInstanceAs (Decidable ((_ ∧ _) ∧ _))
  | .thread _ (.run _) => inferInstanceAs (Decidable (_ < _))
  | .thread _ (.startGet _) | .background _ => isTrue trivial

/-- The values of the entries to replay fit one arena: rounded up and packed in this
order into extents, they take no more extents than the budget has. -/
def FitsOneArena (memoryBudgetCap : ℕ) (es : List (WalEntry Bytes)) : Prop :=
  es = [] ∨ bins (pack Arena.defaultExtentBytes (toLex (1, 0))
    (es.map fun e => roundUp e.value.length valueDataAlignment)) ≤
      memoryBudgetCap / Arena.defaultExtentBytes

instance (memoryBudgetCap : ℕ) (es : List (WalEntry Bytes)) :
    Decidable (FitsOneArena memoryBudgetCap es) :=
  inferInstanceAs (Decidable (_ ∨ _))

/-! ### What every step keeps -/

/-- The numbers in the files and in the hands of the threads are different ones, all
drawn already, and the entries in the files fit their fields. -/
structure LogOk (log : List LogLine) (seqNrs : Fin n → Option ℕ) (seqNr : ℕ) : Prop where
  nodup : (log.map fun line => line.entry.seqNr).Nodup
  lt : ∀ line ∈ log, line.entry.seqNr < seqNr
  fits : ∀ line ∈ log, line.entry.FitsFields
  held : ∀ t seq, seqNrs t = some seq →
    seq < seqNr ∧ seq < 2 ^ 64 ∧ ∀ line ∈ log, line.entry.seqNr ≠ seq
  distinct : ∀ t u seq, seqNrs t = some seq → seqNrs u = some seq → t = u

/-- A call is about a key and a value whose lengths fit. -/
def CallFits (l : ThreadState Bytes) : Prop :=
  ∀ key value i pc, l.call = .put key value i pc →
    (1 ≤ key.length ∧ key.length ≤ maxKeyLen) ∧ value.length < 2 ^ 16

variable {value key : Bytes} {i : ℕ}

namespace LogOk

variable {log : List LogLine} {seqNrs : Fin n → Option ℕ} {seqNr : ℕ} {t : Fin n}

theorem draw (h : LogOk log seqNrs seqNr) (hseq : seqNr < 2 ^ 64) :
    LogOk log (update seqNrs t (some seqNr)) (seqNr + 1) where
  nodup := h.nodup
  lt line hline := Nat.lt_succ_of_lt (h.lt line hline)
  fits := h.fits
  held u seq hu := by
    rw [update_apply] at hu
    split at hu
    · cases hu
      exact ⟨Nat.lt_succ_self _, hseq, fun line hline => (h.lt line hline).ne⟩
    · obtain ⟨hlt, hrest⟩ := h.held u seq hu
      exact ⟨Nat.lt_succ_of_lt hlt, hrest⟩
  distinct u v seq hu hv := by
    rw [update_apply] at hu hv
    split at hu <;> split at hv
    · next hut hvt => exact hut.trans hvt.symm
    · -- another thread holds an older number
      cases hu
      exact absurd (h.held v _ hv).1 (lt_irrefl _)
    · cases hv
      exact absurd (h.held u _ hu).1 (lt_irrefl _)
    · exact h.distinct u v seq hu hv

theorem forget (h : LogOk log seqNrs seqNr) : LogOk log (update seqNrs t none) seqNr := by
  have hheld : ∀ u seq, update seqNrs t none u = some seq → seqNrs u = some seq := by
    intro u seq hu
    rw [update_apply] at hu
    split at hu
    · cases hu
    · exact hu
  exact ⟨h.nodup, h.lt, h.fits, fun u seq hu => h.held u seq (hheld u seq hu),
    fun u v seq hu hv => h.distinct u v seq (hheld u seq hu) (hheld v seq hv)⟩

theorem append (h : LogOk log seqNrs seqNr) {seq slot : ℕ} (ht : seqNrs t = some seq)
    (hkey : 1 ≤ key.length ∧ key.length ≤ maxKeyLen) (hvalue : value.length < 2 ^ 16) :
    LogOk (log ++ [⟨i, slot, seq, key, value⟩]) (update seqNrs t none) seqNr := by
  obtain ⟨hlt, hsize, hfresh⟩ := h.held t seq ht
  refine ⟨?_, ?_, ?_, ?_, h.forget.distinct⟩
  · rw [map_append, map_singleton, nodup_append]
    refine ⟨h.nodup, nodup_singleton _, ?_⟩
    rintro a ha b hb rfl
    obtain ⟨line, hline, rfl⟩ := mem_map.mp ha
    exact hfresh line hline (mem_singleton.mp hb)
  · exact forall_mem_append.mpr ⟨h.lt, forall_mem_singleton.mpr hlt⟩
  · exact forall_mem_append.mpr ⟨h.fits, forall_mem_singleton.mpr ⟨hsize, hkey, hvalue⟩⟩
  · intro u seq' hu
    obtain ⟨hlt', hsize', hfresh'⟩ := h.forget.held u seq' hu
    refine ⟨hlt', hsize', forall_mem_append.mpr ⟨hfresh', forall_mem_singleton.mpr ?_⟩⟩
    rintro rfl
    -- the thread itself no longer holds the number, and no other one ever did
    have hut : u ≠ t := by
      rintro rfl
      rw [update_self] at hu
      cases hu
    rw [update_of_ne hut] at hu
    exact hut (h.distinct u t _ hu ht)

theorem filter (h : LogOk log seqNrs seqNr) (p : LogLine → Bool) :
    LogOk (log.filter p) seqNrs seqNr where
  nodup := h.nodup.sublist (filter_sublist.map _)
  lt line hline := h.lt line (mem_of_mem_filter hline)
  fits line hline := h.fits line (mem_of_mem_filter hline)
  held t seq ht := by
    obtain ⟨hlt, hsize, hfresh⟩ := h.held t seq ht
    exact ⟨hlt, hsize, fun line hline => hfresh line (mem_of_mem_filter hline)⟩
  distinct := h.distinct

end LogOk

variable {l : ThreadState Bytes} {choice : Bool} {pc : PutPc}

section Steps

variable {memoryBudgetCap w : ℕ} {cfg : SstManagerConfig} {part : Bytes → ℕ} {t : Fin n}
  {g g' : LoggedState n}

/-- What the buffers see of an action of `put_async`: a number is drawn, or the
allocation before that fails, an entry is logged, or nothing of the files changes. -/
theorem bufferStep_cases (h : g.bufferStep memoryBudgetCap w t choice key value i pc = some g') :
    (pc = .admitted ∧ choice = true ∧ g'.log = g.log ∧
      g'.seqNrs = update g.seqNrs t (some g.db.mem.seqNr)) ∨
    (pc = .admitted ∧ choice = false ∧ g'.log = g.log ∧
      g'.seqNrs = update g.seqNrs t none) ∨
    (∃ seq, pc = .inserted ∧ g.seqNrs t = some seq ∧
      g'.log = g.log ++ [⟨i, t.val % w, seq, key, value⟩] ∧
      g'.seqNrs = update g.seqNrs t none) ∨
    (pc ≠ .admitted ∧ g'.log = g.log ∧ g'.seqNrs = g.seqNrs) := by
  cases pc with
  | admitted =>
    obtain ⟨-, h⟩ := Option.ite_none_right_eq_some.mp h
    cases h
    cases choice
    · exact .inr (.inl ⟨rfl, rfl, rfl, rfl⟩)
    · exact .inl ⟨rfl, rfl, rfl, rfl⟩
  | inserted =>
    rw [LoggedState.bufferStep] at h
    split at h
    · cases choice
      · cases h
        exact .inr (.inr (.inr ⟨nofun, rfl, rfl⟩))
      · rw [if_pos rfl, LoggedState.append] at h
        split at h
        · next seq hseq =>
          split at h
          · cases h
          · cases h
            exact .inr (.inr (.inl ⟨seq, rfl, hseq, rfl, rfl⟩))
        · cases h
    · cases h
  | _ =>
    cases h
    exact .inr (.inr (.inr ⟨nofun, rfl, rfl⟩))

theorem putStep_seqNr {slot : ℕ} {m m' : SharedState n Bytes} {i' : ℕ} {pc' : Option PutPc}
    (h : putStep t slot choice m key value i pc = (m', i', pc')) :
    m'.seqNr = if pc = .admitted ∧ choice = true then m.seqNr + 1 else m.seqNr := by
  rcases putStep_write h with ⟨rfl, rfl, -, -, rfl⟩ | ⟨seq, rfl, -, -, rfl⟩ | ⟨-, -, hseq, hpc, -⟩
  · rfl
  · rfl
  · rw [hseq, if_neg]
    rintro ⟨rfl, rfl⟩
    cases h
    exact hpc _ rfl

variable {s : State (Fin n) (LoggedState n) (ThreadState Bytes)}

theorem loggedAct_ok {a : ThreadAct Bytes} {l' : ThreadState Bytes}
    (hg : LogOk g.log g.seqNrs g.db.mem.seqNr) (hl : CallFits l) (hc : EntriesFit s (.thread t a))
    (hs : s.shared = g) (h : loggedAct memoryBudgetCap w t a g l = some (g', l')) :
    LogOk g'.log g'.seqNrs g'.db.mem.seqNr ∧ CallFits l' := by
  obtain ⟨gb, hbuffer, hact⟩ := Option.bind_eq_some_iff.mp h
  obtain ⟨⟨mem, l''⟩, hthread, heq⟩ := Option.map_eq_some_iff.mp hact
  cases heq
  rcases threadAct_cases hthread with
    ⟨key, value, i, rfl, hcall, rfl, rfl, rfl⟩ | ⟨key, epoch, i, pc, rfl, hcall, -, rfl, rfl⟩ |
    ⟨choice, key, value, i, pc, i', pc', rfl, hcall, hput, rfl⟩ |
    ⟨choice, key, since, epoch, i, pc, epoch', i', pc', rfl, hcall, -, rfl, rfl⟩
  · rw [hcall] at hbuffer
    cases hbuffer
    refine ⟨hg, fun key' value' i' pc' h' => ?_⟩
    cases h'
    exact hc
  · rw [hcall] at hbuffer
    cases hbuffer
    exact ⟨hg, nofun⟩
  · rw [hcall] at hbuffer
    have hfits := hl key value i pc hcall
    have hseq := putStep_seqNr hput
    refine ⟨?_, ?_⟩
    · show LogOk gb.log gb.seqNrs mem.seqNr
      rcases bufferStep_cases hbuffer with ⟨rfl, rfl, hlog, hheld⟩ | ⟨rfl, rfl, hlog, hheld⟩ |
        ⟨seq, rfl, hown, hlog, hheld⟩ | ⟨hpc, hlog, hheld⟩
      · rw [hlog, hheld, hseq]
        exact hg.draw (hs ▸ hc)
      · rw [hlog, hheld, hseq]
        exact hg.forget
      · rw [hlog, hheld, hseq]
        exact hg.append hown hfits.1 hfits.2
      · rw [hlog, hheld, hseq, if_neg fun hd => hpc hd.1]
        exact hg
    · intro key' value' j pc'' h'
      cases pc' with
      | none => cases h'
      | some pc' =>
        cases h'
        exact hfits
  · rw [hcall] at hbuffer
    cases hbuffer
    refine ⟨hg, fun key' value' j pc'' h' => ?_⟩
    cases pc' <;> cases h'

theorem durableAct_seqNr {b : DurableAct} {d d' : DurableState n Bytes}
    (h : durableAct cfg w part b d = some d') : d'.mem.seqNr = d.mem.seqNr := by
  have hmem : ∀ {a mem}, flushAct w a d.mem = some mem → mem.seqNr = d.mem.seqNr := by
    intro a mem hact
    rcases flushAct_cases hact with ⟨_, _, _, -, -, -, rfl⟩ | ⟨_, _, -, -, rfl⟩ |
      ⟨_, _, -, -, -, rfl⟩ <;> rfl
  cases b with
  | flush a =>
    cases a with
    | publish i =>
      rw [durableAct] at h
      split at h
      · next hstage hact =>
        split at h
        · cases h
          exact hmem hact
        · cases h
      · cases h
    | scan i =>
      obtain ⟨mem, hact, rfl⟩ := Option.map_eq_some_iff.mp h
      exact hmem hact
    | write i ok =>
      obtain ⟨mem, hact, rfl⟩ := Option.map_eq_some_iff.mp h
      exact hmem hact
  | persist i p ok =>
    rw [durableAct] at h
    split at h <;> cases h
    rfl
  | reset i =>
    rw [durableAct] at h
    split at h <;> cases h
    rfl

theorem loggedBackground_ok {b : DurableAct} (hg : LogOk g.log g.seqNrs g.db.mem.seqNr)
    (h : loggedBackground cfg w part b g = some g') :
    LogOk g'.log g'.seqNrs g'.db.mem.seqNr := by
  obtain ⟨db, hact, rfl⟩ := Option.map_eq_some_iff.mp h
  have hseq := durableAct_seqNr hact
  cases b with
  | reset i =>
    show LogOk _ _ db.mem.seqNr
    rw [hseq]
    exact hg.filter _
  | flush a =>
    show LogOk _ _ db.mem.seqNr
    rwa [hseq]
  | persist i p ok =>
    show LogOk _ _ db.mem.seqNr
    rwa [hseq]

theorem logged_logOk {levels : ℕ → ℕ → List (Sst Bytes)} {manifests : String → Option Text}
    {as : List (Label (Fin n) (ThreadAct Bytes) DurableAct)}
    (hall : Run.AllSteps (logged cfg memoryBudgetCap w part n).step EntriesFit
      (newLogged n memoryBudgetCap levels manifests) as)
    (hrun : Run.exec (logged cfg memoryBudgetCap w part n).step
      (newLogged n memoryBudgetCap levels manifests) as = some s) :
    LogOk s.shared.log s.shared.seqNrs s.shared.db.mem.seqNr := by
  have hstart : Holds (fun g : LoggedState n => LogOk g.log g.seqNrs g.db.mem.seqNr)
      (fun _ _ l => CallFits l) (newLogged n memoryBudgetCap levels manifests) :=
    ⟨⟨nodup_nil, nofun, nofun, nofun, nofun⟩, fun _ => nofun⟩
  have hholds := exec_holds (fun s t a g l hs hc hact => ?_) (fun s b g hs _ hact => ?_)
    hstart hall hrun
  · exact hholds.shared
  · obtain ⟨hlog, hcall⟩ := loggedAct_ok hs.shared (hs.threads t) hc rfl hact
    exact ⟨hlog, hcall, fun u _ => hs.threads u⟩
  · exact ⟨loggedBackground_ok hs.shared hact, hs.threads⟩

end Steps

/-! ### What is left after a crash -/

theorem flatMap_filter_subperm {α β : Type*} [DecidableEq β] (key : α → β) {ks : List β}
    (hks : ks.Nodup) (l : List α) :
    (ks.flatMap fun k => l.filter fun a => key a = k).Subperm l := by
  induction ks generalizing l with
  | nil => exact nil_subperm
  | cons k ks ih =>
    obtain ⟨hk, hks⟩ := nodup_cons.mp hks
    -- the other groups are groups of what is left when the first one is taken out
    have hrest : (ks.flatMap fun k' => l.filter fun a => key a = k') =
        ks.flatMap fun k' => (l.filter fun a => !decide (key a = k)).filter fun a => key a = k' := by
      refine flatMap_congr fun k' hk' => ?_
      rw [filter_filter]
      refine filter_congr fun a _ => ?_
      by_cases ha : key a = k'
      · have hne : key a ≠ k := fun h => hk (h ▸ ha ▸ hk')
        simp [ha, ha ▸ hne]
      · simp [ha]
    rw [flatMap_cons, hrest]
    exact (Subperm.refl _).append (ih hks _) |>.trans
      (filter_append_perm (fun a => decide (key a = k)) l).subperm

section Crash

variable {g : LoggedState n} {image : List (String × List (WalEntry Bytes))}

theorem fileEntries_subperm (g : LoggedState n) {files : List (ℕ × ℕ)} (h : files.Nodup) :
    (files.flatMap g.fileEntries).Subperm (g.log.map LogLine.entry) := by
  have hgroups := flatMap_filter_subperm (fun line : LogLine => (line.table, line.slot)) h g.log
  have hmap : files.flatMap g.fileEntries =
      (files.flatMap fun k => g.log.filter fun line => (line.table, line.slot) = k).map
        LogLine.entry := by
    rw [map_flatMap]
    rfl
  obtain ⟨l, hperm, hsub⟩ := hgroups
  rw [hmap]
  exact ⟨l.map LogLine.entry, hperm.map _, hsub.map _⟩

theorem CrashImage.subperm (h : CrashImage g image) :
    (image.flatMap Prod.snd).Subperm (g.log.map LogLine.entry) := by
  obtain ⟨files, hnodup, hprefix⟩ := h
  refine Subperm.trans (Sublist.subperm ?_) (fileEntries_subperm g hnodup)
  clear hnodup
  induction hprefix with
  | nil => exact Sublist.refl _
  | cons hfile _ ih =>
    rw [flatMap_cons, flatMap_cons]
    exact hfile.sublist.append ih

/-- All files, with all they hold. -/
def LoggedState.allFiles (g : LoggedState n) : List (String × List (WalEntry Bytes)) :=
  (g.log.map fun line => (line.table, line.slot)).dedup.map fun file => ("", g.fileEntries file)

theorem crashImage_allFiles (g : LoggedState n) : CrashImage g g.allFiles := by
  refine ⟨(g.log.map fun line => (line.table, line.slot)).dedup, nodup_dedup _, ?_⟩
  rw [LoggedState.allFiles, forall₂_map_right_iff, forall₂_same]
  exact fun file _ => prefix_rfl

theorem allFiles_perm (h : (g.log.map LogLine.entry).Nodup) :
    (g.allFiles.flatMap Prod.snd).Perm (g.log.map LogLine.entry) := by
  refine (crashImage_allFiles g).subperm.antisymm (h.subperm ?_)
  intro e he
  obtain ⟨line, hline, rfl⟩ := mem_map.mp he
  refine mem_flatMap.mpr ⟨("", g.fileEntries (line.table, line.slot)), ?_, ?_⟩
  · exact mem_map_of_mem (mem_dedup.mpr (mem_map_of_mem hline))
  · exact mem_map_of_mem (mem_filter.mpr ⟨hline, decide_eq_true rfl⟩)

end Crash

/-! ### Replay -/

variable {cap : ℕ}

section Replay

variable {config : LoadConfig Bytes} {skip : Option ℕ} {es es' : List (WalEntry Bytes)}

theorem replayedAbove_sublist (hnodup : (es'.map WalEntry.seqNr).Nodup) (h : es.Subperm es') :
    (replayedAbove config skip es).Sublist (replayedAbove config skip es') := by
  have hsort : (config.readOrder.sort es).Subperm (config.readOrder.sort es') :=
    ((config.readOrder.perm es).subperm.trans h).trans (config.readOrder.perm es').symm.subperm
  have hnodup' : (es.map WalEntry.seqNr).Nodup := by
    obtain ⟨l, hperm, hsub⟩ := h
    exact (hperm.map _).nodup_iff.mp (hnodup.sublist (hsub.map _))
  have : Std.Antisymm fun a b : WalEntry Bytes => a.seqNr < b.seqNr :=
    ⟨fun _ _ hab hba => absurd hab hba.asymm⟩
  exact (sublist_of_subperm_of_pairwise hsort (config.readOrder.sorted_lt hnodup')
    (config.readOrder.sorted_lt hnodup)).filter _

theorem FitsOneArena.of_sublist (h : FitsOneArena cap es') (hsub : es.Sublist es') :
    FitsOneArena cap es := by
  rcases h with rfl | h
  · exact .inl (sublist_nil.mp hsub)
  · exact .inr ((bins_mono (pack_le_of_sublist (hsub.map _))).trans h)

theorem arenaTakes_iff (hfits : ∀ e ∈ es, e.FitsFields) :
    ArenaTakes config es ↔ FitsOneArena config.memoryBudgetCap es := by
  have hsmall : ∀ m ∈ es.map fun e => e.value.length,
      roundUp m valueDataAlignment ≤ max Arena.defaultExtentBytes 4096 := by
    intro m hm
    obtain ⟨e, he, rfl⟩ := mem_map.mp hm
    have hvalue := (hfits e he).value
    have hextent : max Arena.defaultExtentBytes 4096 = 4194304 := rfl
    rw [hextent, roundUp, valueDataAlignment]
    omega
  rw [ArenaTakes, Arena.fits_make_iff, FitsOneArena, map_eq_nil_iff, map_map, and_iff_right hsmall]
  rfl

theorem mem_replayedAbove {e : WalEntry Bytes} :
    e ∈ replayedAbove config skip es ↔ e ∈ es ∧ skips skip e = false := by
  rw [replayedAbove, mem_filter, (config.readOrder.perm es).mem_iff, Bool.not_eq_true']

variable {image : List (String × List (WalEntry Bytes))} {checksum : Bytes → UInt32}

/-- A replay of files whose entries fit their fields completes exactly if the arena
takes the values. -/
theorem replays_iff (pread : Bytes → Bytes) (disk : ℕ → PartitionState Bytes)
    (hfits : ∀ e ∈ image.flatMap Prod.snd, e.FitsFields)
    (hpread : ∀ f ∈ image, ReadsWhole pread (walFileBytes checksum f.2)) :
    Replays checksum pread config skip image (loadPartitions config disk) ↔
      ArenaTakes config (replayedAbove config skip (image.flatMap Prod.snd)) := by
  have hread : replayFiles checksum pread config skip
      (image.map fun f => (f.1, walFileBytes checksum f.2)) (loadPartitions config disk) =
        replayWal config skip (image.flatMap Prod.snd) (loadPartitions config disk) := by
    rw [replayFiles, readAllEntries_eq checksum (fun f hf e he =>
      hfits e (mem_flatMap.mpr ⟨f, hf, he⟩)) hpread]
    rfl
  obtain ⟨hok, herr⟩ := replayWal_spec config skip (image.flatMap Prod.snd)
    (show (loadPartitions config disk).table = .empty from rfl) rfl
  rw [Replays, hread]
  constructor
  · rintro ⟨db', hrun, -⟩
    by_contra htakes
    obtain ⟨err, hbad⟩ := herr htakes
    cases hrun.symm.trans hbad
  · intro htakes
    refine ⟨_, hok htakes, fun e he hskip => ?_⟩
    obtain ⟨i, hi⟩ := mem_iff_getElem?.mp (mem_replayedAbove.mpr ⟨he, hskip⟩)
    exact ⟨0 + i, mem_insertAll_self (by simp [Skiplist.empty]) hi⟩

end Replay

/-- **Which WALs can be replayed**: after every run whose entries fit their fields,
all a crash can leave of the files, if it is read whole, is replayed exactly if the logged
values fit one arena. -/
theorem replay_completes_iff (checksum : Bytes → UInt32) (pread : Bytes → Bytes)
    (config : LoadConfig Bytes) {w : ℕ}
    {part : Bytes → ℕ} {levels : ℕ → ℕ → List (Sst Bytes)} {manifests : String → Option Text}
    {as : List (Label (Fin n) (ThreadAct Bytes) DurableAct)}
    {s : State (Fin n) (LoggedState n) (ThreadState Bytes)}
    (hall : Run.AllSteps (logged config.sst config.memoryBudgetCap w part n).step EntriesFit
      (newLogged n config.memoryBudgetCap levels manifests) as)
    (hrun : Run.exec (logged config.sst config.memoryBudgetCap w part n).step
      (newLogged n config.memoryBudgetCap levels manifests) as = some s)
    (hpread : ∀ image, CrashImage s.shared image →
      ∀ f ∈ image, ReadsWhole pread (walFileBytes checksum f.2))
    (skip : Option ℕ) (disk : ℕ → PartitionState Bytes) :
    (∀ image, CrashImage s.shared image →
        Replays checksum pread config skip image (loadPartitions config disk)) ↔
      FitsOneArena config.memoryBudgetCap
        (replayedAbove config skip (s.shared.log.map LogLine.entry)) := by
  have hlog := logged_logOk hall hrun
  have hnodup : ((s.shared.log.map LogLine.entry).map WalEntry.seqNr).Nodup := by
    rw [map_map]
    exact hlog.nodup
  have hfits : ∀ {image}, CrashImage s.shared image →
      ∀ e ∈ image.flatMap Prod.snd, e.FitsFields := by
    intro image himage e he
    obtain ⟨line, hline, rfl⟩ := mem_map.mp (himage.subperm.subset he)
    exact hlog.fits line hline
  have hreplays : ∀ {image}, CrashImage s.shared image →
      (Replays checksum pread config skip image (loadPartitions config disk) ↔
        FitsOneArena config.memoryBudgetCap
          (replayedAbove config skip (image.flatMap Prod.snd))) := by
    intro image himage
    rw [replays_iff pread disk (hfits himage) (hpread image himage)]
    exact arenaTakes_iff fun e he => hfits himage e (mem_replayedAbove.mp he).1
  constructor
  · intro h
    -- nothing is lost in the crash
    have hall := (hreplays (crashImage_allFiles s.shared)).mp (h _ (crashImage_allFiles s.shared))
    refine hall.of_sublist (replayedAbove_sublist ?_ ?_)
    · exact ((allFiles_perm hnodup.of_map).map _).nodup_iff.mpr hnodup
    · exact (allFiles_perm hnodup.of_map).symm.subperm
  · intro h image himage
    exact (hreplays himage).mpr (h.of_sublist (replayedAbove_sublist hnodup himage.subperm))

/-! ### Runs of puts -/

/-- The actions of a `put_async` call that nothing interrupts. -/
def putActs (key value : Bytes) : List (ThreadAct Bytes) :=
  .startPut key value :: replicate 6 (.run true)

variable {g : LoggedState n} {t : Fin n} {w : ℕ}

theorem loggedAct_run {i' : ℕ} {gb : LoggedState n} {m : SharedState n Bytes} {pc' : Option PutPc}
    (hcall : l.call = .put key value i pc)
    (hbuffer : g.bufferStep cap w t choice key value i pc = some gb)
    (hput : putStep t (t.val % w) choice g.db.mem key value i pc = (m, i', pc')) :
    loggedAct cap w t (.run choice) g l = some ({ gb with db := { g.db with mem := m } },
      { l with putRef := some i', call := .afterPut key value i' pc' }) := by
  simp only [loggedAct, threadAct, hcall, hbuffer, hput, Option.bind_some, Option.map_some]

theorem bufferStep_admitted {ptr : ℕ × ℕ} {arena : Arena}
    (harena : (g.arenas i (t.val % w)).allocateMany value.length valueDataAlignment =
      (some ptr, arena)) :
    g.bufferStep cap w t true key value i .admitted = some { g with
      arenas := update g.arenas i (update (g.arenas i) (t.val % w) arena)
      seqNrs := update g.seqNrs t (some g.db.mem.seqNr) } := by
  simp only [LoggedState.bufferStep, harena, Option.isSome_some, if_true]

theorem bufferStep_inserted {seq : ℕ} (hbytes : g.bytesWritten i ≤ cap)
    (hseq : g.seqNrs t = some seq) (hreset : i ∉ g.db.resets) :
    g.bufferStep cap w t true key value i .inserted = some { g with
      bytesWritten := update g.bytesWritten i
        (g.bytesWritten i + (key.length + value.length))
      log := g.log ++ [⟨i, t.val % w, seq, key, value⟩]
      seqNrs := update g.seqNrs t none } := by
  simp only [LoggedState.bufferStep, LoggedState.append, hbytes, hseq, hreset, decide_true,
    if_true, if_false]

structure FirstTableView where
  table : ℕ
  frozen : Bool
  resets : List ℕ
  seqNr : ℕ
  held : Option ℕ
  bytesWritten : ℕ
  arenas : ℕ → Arena
  log : List LogLine

/-- The view of thread `t`. -/
def LoggedState.view (g : LoggedState n) (t : Fin n) : FirstTableView :=
  ⟨g.db.mem.table, (g.db.mem.tables 0).frozen, g.db.resets, g.db.mem.seqNr, g.seqNrs t,
    g.bytesWritten 0, g.arenas 0, g.log⟩

section PutActs

variable {cap w seqNr bytes : ℕ} {t : Fin n} {g : LoggedState n} {l : ThreadState Bytes}
  {held : Option ℕ} {arenas : ℕ → Arena} {log : List LogLine} {ptr : ℕ × ℕ} {arena : Arena}

theorem exec_loggedAct_putActs (key value : Bytes) (hcall : l.call = .idle)
    (href : l.putRef.getD 0 = 0)
    (hview : g.view t = ⟨0, false, [], seqNr, held, bytes, arenas, log⟩)
    (harena : (arenas (t.val % w)).allocateMany value.length valueDataAlignment =
      (some ptr, arena))
    (hbytes : bytes ≤ cap) :
    ∃ g', Run.exec (fun r a => loggedAct cap w t a r.1 r.2) (g, l) (putActs key value) =
        some (g', ⟨some 0, l.getRef, .idle⟩) ∧
      g'.view t = ⟨0, false, [], seqNr + 1, none, bytes + (key.length + value.length),
        update arenas (t.val % w) arena,
        log ++ [⟨0, t.val % w, seqNr, key, value⟩]⟩ := by
  have hstart : loggedAct cap w t (.startPut key value) g l =
      some (g, ⟨some 0, l.getRef, .put key value 0 .start⟩) := by
    have htable : g.db.mem.table = 0 := congrArg FirstTableView.table hview
    simp only [loggedAct, threadAct, hcall, Option.bind_some, Option.map_some, htable, href]
  obtain ⟨g₁, hrun₁, hview₁⟩ :
      ∃ g₁, loggedAct cap w t (.run true) g ⟨some 0, l.getRef, .put key value 0 .start⟩ =
          some (g₁, ⟨some 0, l.getRef, .put key value 0 .announced⟩) ∧
        g₁.view t = ⟨0, false, [], seqNr, held, bytes, arenas, log⟩ :=
    ⟨_, rfl, hview⟩
  obtain ⟨g₂, hrun₂, hview₂⟩ :
      ∃ g₂, loggedAct cap w t (.run true) g₁ ⟨some 0, l.getRef, .put key value 0 .announced⟩ =
          some (g₂, ⟨some 0, l.getRef, .put key value 0 .admitted⟩) ∧
        g₂.view t = ⟨0, false, [], seqNr, held, bytes, arenas, log⟩ := by
    have hfrozen : (g₁.db.mem.tables 0).frozen = false := congrArg FirstTableView.frozen hview₁
    have hadmitted : putStep t (t.val % w) true g₁.db.mem key value 0 .announced =
        (g₁.db.mem, 0, some .admitted) := by
      simp only [putStep, hfrozen, Bool.false_eq_true, if_false]
    exact ⟨_, loggedAct_run rfl rfl hadmitted, hview₁⟩
  obtain ⟨g₃, hrun₃, hview₃⟩ :
      ∃ g₃, loggedAct cap w t (.run true) g₂ ⟨some 0, l.getRef, .put key value 0 .admitted⟩ =
          some (g₃, ⟨some 0, l.getRef, .put key value 0 (.drawn seqNr)⟩) ∧
        g₃.view t = ⟨0, false, [], seqNr + 1, some seqNr, bytes,
          update arenas (t.val % w) arena, log⟩ := by
    obtain ⟨htable, hfrozen, hresets, rfl, -, rfl, rfl, rfl⟩ := FirstTableView.mk.inj hview₂
    refine ⟨_, loggedAct_run rfl (bufferStep_admitted harena) rfl, ?_⟩
    simp [LoggedState.view, htable, hfrozen, hresets]
  obtain ⟨g₄, hrun₄, hview₄⟩ :
      ∃ g₄, loggedAct cap w t (.run true) g₃ ⟨some 0, l.getRef, .put key value 0 (.drawn seqNr)⟩ =
          some (g₄, ⟨some 0, l.getRef, .put key value 0 .inserted⟩) ∧
        g₄.view t = ⟨0, false, [], seqNr + 1, some seqNr, bytes,
          update arenas (t.val % w) arena, log⟩ :=
    ⟨_, rfl, hview₃⟩
  obtain ⟨g₅, hrun₅, hview₅⟩ :
      ∃ g₅, loggedAct cap w t (.run true) g₄ ⟨some 0, l.getRef, .put key value 0 .inserted⟩ =
          some (g₅, ⟨some 0, l.getRef, .put key value 0 (.release true)⟩) ∧
        g₅.view t = ⟨0, false, [], seqNr + 1, none, bytes + (key.length + value.length),
          update arenas (t.val % w) arena, log ++ [⟨0, t.val % w, seqNr, key, value⟩]⟩ := by
    obtain ⟨htable, hfrozen, hresets, hseq, hheld, rfl, harenas, rfl⟩ :=
      FirstTableView.mk.inj hview₄
    have hreset : 0 ∉ g₄.db.resets := hresets ▸ not_mem_nil
    refine ⟨_, loggedAct_run rfl (bufferStep_inserted hbytes hheld hreset) rfl, ?_⟩
    simp [LoggedState.view, htable, hfrozen, hresets, hseq, harenas]
  obtain ⟨g₆, hrun₆, hview₆⟩ :
      ∃ g₆, loggedAct cap w t (.run true) g₅ ⟨some 0, l.getRef, .put key value 0 (.release true)⟩ =
          some (g₆, ⟨some 0, l.getRef, .idle⟩) ∧ g₆.view t = g₅.view t :=
    ⟨_, rfl, rfl⟩
  refine ⟨g₆, ?_, hview₆.trans hview₅⟩
  rw [putActs, Run.exec_cons hstart, replicate, Run.exec_cons hrun₁, replicate,
    Run.exec_cons hrun₂, replicate, Run.exec_cons hrun₃, replicate, Run.exec_cons hrun₄,
    replicate, Run.exec_cons hrun₅, replicate, Run.exec_cons hrun₆]
  rfl

end PutActs

/-! ### A WAL that cannot be replayed -/

def oneExtent : LoadConfig Bytes :=
  { sst := {}, partitionIds := [65535], maxPendingFlushes := 1
    memoryBudgetCap := Arena.defaultExtentBytes, disableWal := false, readOrder := .insertion }

/-- An arena of one extent, with the first bytes taken. -/
def oneExtentArena (taken : ℕ) : Arena :=
  ⟨Arena.defaultExtentBytes, Arena.defaultExtentBytes, Arena.defaultExtentBytes, 1, some 0, taken⟩

theorem allocateMany_oneExtentArena (taken : ℕ) (h : taken + 16 ≤ Arena.defaultExtentBytes) :
    (oneExtentArena taken).allocateMany 2 valueDataAlignment =
      (some (0, taken), oneExtentArena (taken + 16)) := by
  have hround : roundUp 2 valueDataAlignment = 16 := rfl
  rw [Arena.allocateMany, hround, Arena.allocateManyImpl]
  exact if_neg (Nat.not_lt.mpr h)

/-- Value `[1, 7]` is put under key `[0]` again and again. -/
def putAgain (m : ℕ) : List (ThreadAct Bytes) := (replicate m (putActs [0] [1, 7])).flatten

/-- The entries of the first `m` of these puts. -/
def putAgainEntries (m : ℕ) : List (WalEntry Bytes) := (range m).map fun j => ⟨j, [0], [1, 7]⟩

theorem exec_putAgain {seqNr bytes : ℕ} {held : Option ℕ} {arenas : ℕ → Arena}
    {log : List LogLine} {taken : ℕ} (hcall : l.call = .idle) (href : l.putRef.getD 0 = 0)
    (hview : g.view t = ⟨0, false, [], seqNr, held, bytes, arenas, log⟩)
    (harena : arenas (t.val % w) = oneExtentArena taken)
    (hlog : log.map LogLine.entry = putAgainEntries seqNr) (m : ℕ)
    (hroom : taken + m * 16 ≤ Arena.defaultExtentBytes)
    (hbytes : bytes + m * 3 ≤ Arena.defaultExtentBytes) :
    ∃ g' l' held' arenas' log',
      Run.exec (fun r a => loggedAct Arena.defaultExtentBytes w t a r.1 r.2) (g, l) (putAgain m) =
        some (g', l') ∧
      g'.view t = ⟨0, false, [], seqNr + m, held', bytes + m * 3, arenas', log'⟩ ∧
      log'.map LogLine.entry = putAgainEntries (seqNr + m) ∧
      ∀ slot, slot ≠ t.val % w → arenas' slot = arenas slot := by
  induction m generalizing g l held seqNr bytes arenas log taken with
  | zero => exact ⟨g, l, held, arenas, log, rfl, hview, hlog, fun _ _ => rfl⟩
  | succ m ih =>
    have halloc : (arenas (t.val % w)).allocateMany [1, 7].length valueDataAlignment =
        (some (0, taken), oneExtentArena (taken + 16)) := by
      rw [harena]
      exact allocateMany_oneExtentArena taken (by omega)
    have hbytes₀ : bytes ≤ Arena.defaultExtentBytes := by omega
    obtain ⟨g₁, hrun₁, hview₁⟩ :=
      exec_loggedAct_putActs [0] [1, 7] hcall href hview halloc hbytes₀
    have hlog₁ : (log ++ [(⟨0, t.val % w, seqNr, [0], [1, 7]⟩ : LogLine)]).map LogLine.entry =
        putAgainEntries (seqNr + 1) := by
      rw [map_append, hlog, putAgainEntries, putAgainEntries, range_succ, map_append]
      rfl
    obtain ⟨g₂, l₂, held₂, arenas₂, log₂, hrun₂, hview₂, hlog₂, harenas₂⟩ :=
      ih (l := ⟨some 0, l.getRef, .idle⟩) rfl rfl hview₁ (update_self ..) hlog₁ (by omega)
        (by simp only [length_cons, length_nil]; omega)
    have hseq : seqNr + 1 + m = seqNr + (m + 1) := by omega
    have hsum : bytes + ([(0 : UInt8)].length + [(1 : UInt8), 7].length) + m * 3 =
        bytes + (m + 1) * 3 := by
      simp only [length_cons, length_nil]
      omega
    rw [hseq] at hview₂ hlog₂
    rw [hsum] at hview₂
    refine ⟨g₂, l₂, held₂, arenas₂, log₂, ?_, hview₂, hlog₂, fun slot hslot => ?_⟩
    · rw [putAgain, replicate_succ, flatten_cons, Run.exec_append, hrun₁]
      exact hrun₂
    · rw [harenas₂ slot hslot, update_of_ne hslot]

/-- Thread 0 fills its arena, and thread 1 puts two values more. -/
def exhaustingRun : List (Label (Fin 2) (ThreadAct Bytes) DurableAct) :=
  (putAgain 262144).map (.thread firstThread) ++ (putAgain 2).map (.thread secondThread)

theorem exec_exhaustingRun :
    ∃ s, Run.exec (logged {} Arena.defaultExtentBytes 2 (fun _ => 65535) 2).step
        (newLogged 2 Arena.defaultExtentBytes (fun _ _ => []) fun _ => none) exhaustingRun =
          some s ∧
      s.shared.log.map LogLine.entry = putAgainEntries 262146 := by
  obtain ⟨g₁, l₁, held₁, arenas₁, log₁, hrun₁, hview₁, hlog₁, harenas₁⟩ :=
    exec_putAgain (w := 2) (t := (0 : Fin 2)) (l := {})
      (g := (newLogged 2 Arena.defaultExtentBytes (fun _ _ => []) fun _ => none).shared)
      rfl rfl rfl (show _ = oneExtentArena 0 from rfl) rfl 262144 (by decide) (by decide)
  -- thread 1 has an arena of its own
  have hview₁' : g₁.view 1 = ⟨0, false, [], 262144, g₁.seqNrs 1, 786432, arenas₁, log₁⟩ :=
    congrArg (fun v => { v with held := g₁.seqNrs 1 }) hview₁
  have harena₁ : arenas₁ 1 = oneExtentArena 0 := (harenas₁ 1 (by decide)).trans rfl
  obtain ⟨g₂, l₂, held₂, arenas₂, log₂, hrun₂, hview₂, hlog₂, -⟩ :=
    exec_putAgain (w := 2) (l := {}) rfl rfl hview₁' harena₁ hlog₁ 2 (by decide) (by decide)
  refine ⟨⟨g₂, update (update (fun _ => {}) 0 l₁) 1 l₂⟩, ?_, ?_⟩
  · have hfirst : Run.exec (logged {} Arena.defaultExtentBytes 2 (fun _ => 65535) 2).step
        (newLogged 2 Arena.defaultExtentBytes (fun _ _ => []) fun _ => none)
        ((putAgain 262144).map (.thread 0)) = some ⟨g₁, update (fun _ => {}) 0 l₁⟩ := by
      rw [newLogged, exec_thread]
      exact congrArg (Option.map _) hrun₁
    rw [exhaustingRun, firstThread, secondThread, Run.exec_append, hfirst, Option.bind_some,
      exec_thread]
    exact congrArg (Option.map _) hrun₂
  · rw [show g₂.log = log₂ from congrArg FirstTableView.log hview₂]
    exact hlog₂

theorem putAgainEntries_fits {m : ℕ} (hm : m ≤ 2 ^ 64) {e : WalEntry Bytes}
    (he : e ∈ putAgainEntries m) : e.value = [1, 7] ∧ e.FitsFields := by
  obtain ⟨j, hj, rfl⟩ := mem_map.mp he
  have hkey : 1 ≤ [(0 : UInt8)].length ∧ [(0 : UInt8)].length ≤ maxKeyLen := by decide
  have hvalue : [(1 : UInt8), 7].length < 2 ^ 16 := by decide
  exact ⟨rfl, (mem_range.mp hj).trans_le hm, hkey, hvalue⟩

theorem length_filter_putAgainEntries (m : ℕ) :
    ((putAgainEntries (m + 1)).filter fun e => !skips (some 0) e).length = m := by
  have hkept : ∀ e ∈ ((range m).map Nat.succ).map fun j => (⟨j, [0], [1, 7]⟩ : WalEntry Bytes),
      (!skips (some 0) e) = true := by
    intro e he
    obtain ⟨j, hj, rfl⟩ := mem_map.mp he
    obtain ⟨i, -, rfl⟩ := mem_map.mp hj
    rfl
  rw [putAgainEntries, range_succ_eq_map, map_cons, filter_cons_of_neg (by decide),
    filter_eq_self.mpr hkept]
  simp

theorem not_fitsOneArena {es : List (WalEntry Bytes)} (hes : ∀ e ∈ es, e.value = [1, 7])
    (hlen : 262144 < es.length) : ¬ FitsOneArena Arena.defaultExtentBytes es := by
  have hsizes : es.map (fun e => roundUp e.value.length valueDataAlignment) =
      replicate es.length 16 := by
    refine map_eq_replicate_iff.mpr fun e he => ?_
    rw [hes e he]
    rfl
  rintro (rfl | hbins)
  · exact absurd hlen (by decide)
  · have hsum := sum_le_pack Arena.defaultExtentBytes (s := toLex (1, 0))
      (l := replicate es.length 16) (Nat.zero_le _) fun x hx => by
        rw [eq_of_mem_replicate hx]
        decide
    rw [hsizes] at hbins
    have hone : Arena.defaultExtentBytes / Arena.defaultExtentBytes = 1 := rfl
    have hmul := Nat.mul_le_mul_right Arena.defaultExtentBytes (hbins.trans hone.le)
    have hextent : Arena.defaultExtentBytes = 4194304 := rfl
    have hstart : bins (toLex (1, 0)) = 1 := rfl
    rw [sum_replicate_nat, hstart] at hsum
    omega

/-- Both threads put one value, and all of it is replayed. -/
theorem replay_completes_two :
    Run.AllSteps (logged oneExtent.sst oneExtent.memoryBudgetCap 2 (fun _ => 65535) 2).step
        EntriesFit (newLogged 2 oneExtent.memoryBudgetCap (fun _ _ => []) fun _ => none)
        ((putAgain 1).map (.thread 0) ++ (putAgain 1).map (.thread 1)) ∧
      ∃ s, Run.exec (logged oneExtent.sst oneExtent.memoryBudgetCap 2 (fun _ => 65535) 2).step
          (newLogged 2 oneExtent.memoryBudgetCap (fun _ _ => []) fun _ => none)
          ((putAgain 1).map (.thread 0) ++ (putAgain 1).map (.thread 1)) = some s ∧
        s.shared.log.map LogLine.entry = putAgainEntries 2 ∧
        ∀ image, CrashImage s.shared image →
          Replays (fun _ => 0) id oneExtent none image (loadPartitions oneExtent fun _ => {}) := by
  have hall : Run.AllSteps
      (logged oneExtent.sst oneExtent.memoryBudgetCap 2 (fun _ => 65535) 2).step EntriesFit
      (newLogged 2 oneExtent.memoryBudgetCap (fun _ _ => []) fun _ => none)
      ((putAgain 1).map (.thread 0) ++ (putAgain 1).map (.thread 1)) := by
    decide +kernel
  obtain ⟨s, hrun, hlog⟩ :
      ∃ s, Run.exec (logged oneExtent.sst oneExtent.memoryBudgetCap 2 (fun _ => 65535) 2).step
          (newLogged 2 oneExtent.memoryBudgetCap (fun _ _ => []) fun _ => none)
          ((putAgain 1).map (.thread 0) ++ (putAgain 1).map (.thread 1)) = some s ∧
        s.shared.log.map LogLine.entry = putAgainEntries 2 :=
    ⟨_, rfl, rfl⟩
  refine ⟨hall, s, hrun, hlog, ?_⟩
  refine (replay_completes_iff (fun _ => 0) id oneExtent hall hrun (fun _ _ _ _ => rfl) none
    fun _ => {}).mpr ?_
  rw [hlog]
  decide

/-- **A WAL that cannot be replayed**: the two threads had an arena each, the replay has
one.  Number 0 is skipped, as `load` does when there is no SST. -/
theorem replay_exhausts_arena :
    ∃ s, Run.exec (logged oneExtent.sst oneExtent.memoryBudgetCap 2 (fun _ => 65535) 2).step
        (newLogged 2 oneExtent.memoryBudgetCap (fun _ _ => []) fun _ => none) exhaustingRun =
          some s ∧
      ∃ image, CrashImage s.shared image ∧ ∀ checksum disk,
        ¬ Replays checksum id oneExtent (some 0) image (loadPartitions oneExtent disk) := by
  obtain ⟨s, hrun, hlog⟩ := exec_exhaustingRun
  refine ⟨s, hrun, s.shared.allFiles, crashImage_allFiles _, fun checksum disk hreplays => ?_⟩
  have hnodup : (putAgainEntries 262146).Nodup :=
    nodup_range.map fun i j h => congrArg WalEntry.seqNr h
  have hperm : (s.shared.allFiles.flatMap Prod.snd).Perm (putAgainEntries 262146) := by
    rw [← hlog] at hnodup ⊢
    exact allFiles_perm hnodup
  have hentries : ∀ e ∈ s.shared.allFiles.flatMap Prod.snd, e.value = [1, 7] ∧ e.FitsFields :=
    fun e he => putAgainEntries_fits (by decide) (hperm.subset he)
  have htakes := (replays_iff id disk (fun e he => (hentries e he).2)
    fun _ _ => rfl).mp hreplays
  rw [arenaTakes_iff fun e he => (hentries e (mem_replayedAbove.mp he).1).2] at htakes
  have hsorted := (oneExtent.readOrder.perm (s.shared.allFiles.flatMap Prod.snd)).trans hperm
  have hlen : (replayedAbove oneExtent (some 0) (s.shared.allFiles.flatMap Prod.snd)).length =
      262145 :=
    (hsorted.filter _).length_eq.trans (length_filter_putAgainEntries 262145)
  exact not_fitsOneArena (fun e he => (hentries e (mem_replayedAbove.mp he).1).1)
    (by rw [hlen]; decide) htakes

end HedgeDB
