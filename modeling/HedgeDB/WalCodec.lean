/-
HedgeDB/WalCodec.lean

The WAL codec with its pointers and its hashers (`src/db/wal.cc`, `src/db/hasher.h`).

`WalFile` has the format on lists of bytes, with a checksum function.  Here the writer
threads keep their `thread_local` hasher from entry to entry, and the reader keeps one
for a file and moves a position through the buffer that `pread` has filled.  A hasher
is what it was given since its last reset; every entry ends with a `sum`, which resets
it, so writers and readers behave as those of `WalFile` do.

Entries written by any threads to any files are replayed once each, in the order of
their numbers (`wal_replay_exact`).
-/
import HedgeDB.WalFile

namespace HedgeDB

open Function

open List hiding modify
open ByteCodec

/-! ### The hasher -/

/-- `hasher64`: the bytes since the last reset.  `hash` is XXH64 with the seed of the
class; a streaming digest is that of the concatenated updates. -/
structure Hasher64 where
  input : Bytes := []
  deriving DecidableEq, Repr

def Hasher64.update (h : Hasher64) (bytes : Bytes) : Hasher64 := ⟨h.input ++ bytes⟩

def Hasher64.sum (hash : Bytes → UInt64) (h : Hasher64) : UInt64 × Hasher64 := (hash h.input, {})

def mask32Bit : UInt64 := ((1 : UInt64) <<< (32 : UInt64)) - 1

def walChecksum (hash : Bytes → UInt64) (bytes : Bytes) : UInt32 :=
  (hash bytes &&& mask32Bit).toUInt32

theorem foldl_update (h : Hasher64) (parts : List Bytes) :
    parts.foldl Hasher64.update h = ⟨h.input ++ parts.flatten⟩ := by
  induction parts generalizing h with
  | nil => simp
  | cons part parts ih => simp [ih, Hasher64.update]

/-! ### The writers -/

/-- The parts of an entry that the hasher is updated with, in the order of the `iovec`s. -/
def walEntryParts (e : WalEntry Bytes) : List Bytes :=
  [le 8 e.seqNr, [encodeKeySize e.key.length], e.key, le 2 e.value.length, e.value]

/-- `_write_entry` with the hasher of its thread. -/
def writeEntryWith (hash : Bytes → UInt64) (hasher : Hasher64) (e : WalEntry Bytes) :
    Bytes × Hasher64 :=
  let (sum, hasher) := ((walEntryParts e).foldl Hasher64.update hasher).sum hash
  ((walEntryParts e).flatten ++ le 4 (sum &&& mask32Bit).toUInt32.toNat, hasher)

/-- A call of `wal::append`: its thread, the file of its slot, the entry. -/
structure WalAppend where
  thread : ℕ
  file : String
  entry : WalEntry Bytes

structure WalWriters where
  hashers : ℕ → Hasher64 := fun _ => {}
  files : String → Bytes := fun _ => []

def WalWriters.append (hash : Bytes → UInt64) (s : WalWriters) (a : WalAppend) : WalWriters :=
  let r := writeEntryWith hash (s.hashers a.thread) a.entry
  { hashers := update s.hashers a.thread r.2
    files := update s.files a.file (s.files a.file ++ r.1) }

/-- The writers after these calls. -/
def appendAll (hash : Bytes → UInt64) (appends : List WalAppend) : WalWriters :=
  appends.foldl (WalWriters.append hash) {}

/-- The entries of a file, in the order in which they were appended. -/
def entriesOf (appends : List WalAppend) (file : String) : List (WalEntry Bytes) :=
  (appends.filter fun a => a.file = file).map WalAppend.entry

theorem flatten_walEntryParts (e : WalEntry Bytes) : (walEntryParts e).flatten = walEntryBody e := by
  simp [walEntryParts, walEntryBody]

theorem writeEntryWith_fresh (hash : Bytes → UInt64) (e : WalEntry Bytes) :
    writeEntryWith hash {} e = (writeEntry (walChecksum hash) e, {}) := by
  have hfold : (walEntryParts e).foldl Hasher64.update {} = ⟨walEntryBody e⟩ := by
    rw [foldl_update, flatten_walEntryParts]
    rfl
  simp only [writeEntryWith, hfold, Hasher64.sum, flatten_walEntryParts]
  rfl

theorem foldl_append (hash : Bytes → UInt64) (appends : List WalAppend) {s : WalWriters}
    (hs : ∀ t, s.hashers t = {}) (file : String) :
    (appends.foldl (WalWriters.append hash) s).files file =
      s.files file ++ walFileBytes (walChecksum hash) (entriesOf appends file) := by
  induction appends generalizing s with
  | nil => simp [entriesOf, walFileBytes]
  | cons a appends ih =>
    have hwrite : writeEntryWith hash (s.hashers a.thread) a.entry =
        (writeEntry (walChecksum hash) a.entry, {}) := by
      rw [hs, writeEntryWith_fresh]
    have hfresh : ∀ t, (s.append hash a).hashers t = {} := by
      intro t
      show update s.hashers a.thread _ t = {}
      rw [hwrite]
      by_cases ht : t = a.thread
      · rw [ht, update_self]
      · rw [update_of_ne ht, hs]
    rw [foldl_cons, ih hfresh]
    show update s.files a.file _ file ++ _ = _
    rw [hwrite]
    by_cases hfile : a.file = file
    · rw [hfile, update_self]
      simp [entriesOf, hfile, walFileBytes]
    · rw [update_of_ne (Ne.symm hfile)]
      simp [entriesOf, hfile]

theorem appendAll_files (hash : Bytes → UInt64) (appends : List WalAppend) (file : String) :
    (appendAll hash appends).files file =
      walFileBytes (walChecksum hash) (entriesOf appends file) := by
  rw [appendAll, foldl_append hash appends (fun _ => rfl)]
  rfl

/-! ### The reader -/

/-- The variables of `read_wal_file_generator`.  `reads` records the accesses to the
buffer, by offset and length. -/
structure ReaderState where
  pos : ℕ := 0
  hasher : Hasher64 := {}
  reads : List (ℕ × ℕ) := []

abbrev WalReader := ExceptT Error (StateM ReaderState)

/-- After an access to `n` bytes. -/
def ReaderState.advance (r : ReaderState) (n : ℕ) : ReaderState :=
  { r with pos := r.pos + n, reads := r.reads ++ [(r.pos, n)] }

def readFromBuf (buffer : Bytes) (n : ℕ) : StateM ReaderState (Option Bytes) := fun r =>
  if r.pos + n > buffer.length then (none, r)
  else (some ((buffer.drop r.pos).take n), r.advance n)

def readFieldAt (buffer : Bytes) (path field : String) (n : ℕ) : WalReader Bytes := do
  match ← readFromBuf buffer n with
  | some bytes => return bytes
  | none =>
      throw { msg := "incomplete WAL entry " ++ field ++ " in file " ++ path ++
        " at offset " ++ toString (← get).pos }

def checkKeySizeAt (path : String) (encodedKeySize : UInt8) : WalReader Unit := do
  if decodeKeySize encodedKeySize > maxKeyLen then
    throw { msg := "invalid encoded key size " ++ toString encodedKeySize ++
      " in WAL entry in file " ++ path ++ " at offset " ++ toString (← get).pos }

def computeChecksum (hash : Bytes → UInt64) (parts : List Bytes) : WalReader UInt32 := do
  let (sum, hasher) := (parts.foldl Hasher64.update (← get).hasher).sum hash
  modify fun r => { r with hasher }
  return (sum &&& mask32Bit).toUInt32

/-- One round of the loop. -/
def readEntryAt (hash : Bytes → UInt64) (path : String) (buffer : Bytes) :
    WalReader (WalEntry Bytes) := do
  let seqNr ← readFieldAt buffer path "sequence number" 8
  let encodedKeySize ← readFieldAt buffer path "key size" 1
  checkKeySizeAt path (encodedKeySize.headD 0)
  let key ← readFieldAt buffer path "key" (decodeKeySize (encodedKeySize.headD 0))
  let valueSize ← readFieldAt buffer path "value size" 2
  let value ← readFieldAt buffer path "value" (ofLe valueSize)
  let checksum ← readFieldAt buffer path "checksum" 4
  let computed ← computeChecksum hash [seqNr, encodedKeySize, key, valueSize, value]
  checkSum path (ofLe seqNr) (ofLe checksum) computed
  return ⟨ofLe seqNr, key, value⟩

/-- `read_wal_file_generator`: what it yields, and its variables at the end. -/
def readWalFileGenerator (hash : Bytes → UInt64) (path : String) (buffer : Bytes) :
    ℕ → ReaderState → List (Expected (WalEntry Bytes)) × ReaderState
  | 0, r => ([], r)
  | fuel + 1, r =>
      if r.pos < buffer.length then
        match (readEntryAt hash path buffer).run r with
        | (.error err, r) => ([.error err], r)
        | (.ok e, r) =>
            let (rest, r) := readWalFileGenerator hash path buffer fuel r
            (.ok e :: rest, r)
      else ([], r)

/-! ### The reader on positions and the reader on lists -/

section Reader

variable {hash : Bytes → UInt64} {path : String} {buffer : Bytes} {r : ReaderState}

/-- The position is in the buffer, the hasher is reset, and no access was outside. -/
structure ReaderOk (buffer : Bytes) (r : ReaderState) : Prop where
  pos : r.pos ≤ buffer.length
  hasher : r.hasher = {}
  reads : ∀ x ∈ r.reads, x.1 + x.2 ≤ buffer.length

theorem ReaderOk.advance (h : ReaderOk buffer r) {n : ℕ} (hn : r.pos + n ≤ buffer.length) :
    ReaderOk buffer (r.advance n) := by
  refine ⟨hn, h.hasher, fun x hx => ?_⟩
  rcases mem_append.mp hx with hx' | hx'
  · exact h.reads x hx'
  · obtain rfl := mem_singleton.mp hx'
    exact hn

variable {r' : ReaderState}

theorem run_bind_ok {α β : Type} {x : WalReader α} {f : α → WalReader β} {a : α}
    (h : x.run r = (.ok a, r')) : (x >>= f).run r = (f a).run r' := by
  show (ExceptT.bindCont f (x r).1) (x r).2 = _
  have h' : x r = (.ok a, r') := h
  rw [h']
  rfl

theorem run_bind_error {α β : Type} {x : WalReader α} {f : α → WalReader β} {err : Error}
    (h : x.run r = (.error err, r')) : (x >>= f).run r = (.error err, r') := by
  show (ExceptT.bindCont f (x r).1) (x r).2 = _
  have h' : x r = (.error err, r') := h
  rw [h']
  rfl

theorem run_liftM {α : Type} {x : StateM ReaderState α} {a : α} (h : x r = (a, r')) :
    (liftM x : WalReader α).run r = (.ok a, r') := by
  show (Except.ok (x r).1, (x r).2) = _
  rw [h]

theorem error_bind {α β : Type} (err : Error) (f : α → Expected β) :
    (Except.error err >>= f) = .error err := rfl

theorem readFieldAt_run (h : ReaderOk buffer r) (path field : String) (n : ℕ) :
    (r.pos + n ≤ buffer.length ∧
      (readFieldAt buffer path field n).run r =
        (.ok ((buffer.drop r.pos).take n), r.advance n) ∧
      readField path buffer.length field n (buffer.drop r.pos) =
        .ok ((buffer.drop r.pos).take n, buffer.drop (r.advance n).pos)) ∨
    ∃ err, (readFieldAt buffer path field n).run r = (.error err, r) ∧
      readField path buffer.length field n (buffer.drop r.pos) = .error err := by
  have hpos := h.pos
  have hlen : (buffer.drop r.pos).length = buffer.length - r.pos := length_drop
  by_cases hn : r.pos + n ≤ buffer.length
  · have hbuf : readFromBuf buffer n r = (some ((buffer.drop r.pos).take n), r.advance n) :=
      if_neg (Nat.not_lt_of_le hn)
    refine .inl ⟨hn, ?_, ?_⟩
    · rw [readFieldAt, run_bind_ok (run_liftM hbuf)]
      rfl
    · rw [readField, if_pos (by omega), drop_drop]
      rfl
  · have hbuf : readFromBuf buffer n r = (none, r) := if_pos (Nat.lt_of_not_le hn)
    refine .inr ⟨{ msg := "incomplete WAL entry " ++ field ++ " in file " ++ path ++
        " at offset " ++ toString r.pos }, ?_, ?_⟩
    · rw [readFieldAt, run_bind_ok (run_liftM hbuf)]
      rfl
    · have hoffset : buffer.length - (buffer.drop r.pos).length = r.pos := by omega
      rw [readField, if_neg (by omega), hoffset]

theorem checkKeySizeAt_run (h : ReaderOk buffer r) (path : String) (encodedKeySize : UInt8) :
    (checkKeySizeAt path encodedKeySize).run r =
      (checkKeySize path buffer.length encodedKeySize (buffer.drop r.pos), r) := by
  have hpos := h.pos
  have hoffset : buffer.length - (buffer.drop r.pos).length = r.pos := by
    rw [length_drop]
    omega
  rw [checkKeySizeAt, checkKeySize, hoffset]
  split
  · rfl
  · rfl

theorem computeChecksum_run (hash : Bytes → UInt64) (h : ReaderOk buffer r) (parts : List Bytes) :
    (computeChecksum hash parts).run r = (.ok (walChecksum hash parts.flatten), r) := by
  have hfold : parts.foldl Hasher64.update r.hasher = ⟨parts.flatten⟩ := by
    rw [foldl_update, h.hasher]
    rfl
  have hstate : { r with hasher := ({} : Hasher64) } = r := by
    rw [← h.hasher]
  show (Except.ok _, { r with hasher := ((parts.foldl Hasher64.update r.hasher).sum hash).2 }) = _
  rw [hfold]
  exact Prod.ext rfl hstate

/-- What the two readers have in common after a round. -/
inductive RoundAgrees (buffer : Bytes) :
    Expected (WalEntry Bytes) × ReaderState → Expected (WalEntry Bytes × Bytes) → Prop
  | ok {e : WalEntry Bytes} {r : ReaderState} :
      ReaderOk buffer r → RoundAgrees buffer (.ok e, r) (.ok (e, buffer.drop r.pos))
  | error {err : Error} {r : ReaderState} :
      ReaderOk buffer r → RoundAgrees buffer (.error err, r) (.error err)

theorem RoundAgrees.field {f : Bytes → WalReader (WalEntry Bytes)}
    {f' : Bytes × Bytes → Expected (WalEntry Bytes × Bytes)} (h : ReaderOk buffer r)
    (path field : String) (n : ℕ)
    (hnext : ∀ bytes r', ReaderOk buffer r' →
      RoundAgrees buffer ((f bytes).run r') (f' (bytes, buffer.drop r'.pos))) :
    RoundAgrees buffer ((readFieldAt buffer path field n >>= f).run r)
      (readField path buffer.length field n (buffer.drop r.pos) >>= f') := by
  rcases readFieldAt_run h path field n with ⟨hn, hrun, hread⟩ | ⟨err, hrun, hread⟩
  · rw [run_bind_ok hrun, hread, ok_bind]
    exact hnext _ _ (h.advance hn)
  · rw [run_bind_error hrun, hread, error_bind]
    exact .error h

theorem RoundAgrees.keySize {f : Unit → WalReader (WalEntry Bytes)}
    {f' : Unit → Expected (WalEntry Bytes × Bytes)} (h : ReaderOk buffer r) (path : String)
    (encodedKeySize : UInt8) (hnext : RoundAgrees buffer ((f ()).run r) (f' ())) :
    RoundAgrees buffer ((checkKeySizeAt path encodedKeySize >>= f).run r)
      (checkKeySize path buffer.length encodedKeySize (buffer.drop r.pos) >>= f') := by
  have hrun := checkKeySizeAt_run h path encodedKeySize
  rcases hsize : checkKeySize path buffer.length encodedKeySize (buffer.drop r.pos) with err | ⟨⟩
  · rw [run_bind_error (hrun.trans (by rw [hsize])), error_bind]
    exact .error h
  · rw [run_bind_ok (hrun.trans (by rw [hsize])), ok_bind]
    exact hnext

/-- **One round of the reader** is that of `WalFile`. -/
theorem readEntryAt_agrees (hash : Bytes → UInt64) (path : String) (h : ReaderOk buffer r) :
    RoundAgrees buffer ((readEntryAt hash path buffer).run r)
      (readWalEntry (walChecksum hash) path buffer.length (buffer.drop r.pos)) := by
  rw [readEntryAt, readWalEntry]
  refine .field h path _ _ fun seqNr r₁ h₁ => ?_
  refine .field h₁ path _ _ fun encodedKeySize r₂ h₂ => ?_
  refine .keySize h₂ path _ ?_
  refine .field h₂ path _ _ fun key r₃ h₃ => ?_
  refine .field h₃ path _ _ fun valueSize r₄ h₄ => ?_
  refine .field h₄ path _ _ fun value r₅ h₅ => ?_
  refine .field h₅ path _ _ fun sum r₆ h₆ => ?_
  have hparts : [seqNr, encodedKeySize, key, valueSize, value].flatten =
      seqNr ++ (encodedKeySize ++ key ++ (valueSize ++ value)) := by simp
  dsimp only
  rw [run_bind_ok (computeChecksum_run hash h₆ _), hparts]
  rcases hsum : checkSum path (ofLe seqNr) (ofLe sum)
    (walChecksum hash (seqNr ++ (encodedKeySize ++ key ++ (valueSize ++ value)))) with err | ⟨⟩
  · exact .error h₆
  · exact .ok h₆

theorem pos_lt_of_readEntryAt (h : ReaderOk buffer r) {e : WalEntry Bytes}
    (hrun : (readEntryAt hash path buffer).run r = (.ok e, r')) :
    r.pos < r'.pos ∧ ReaderOk buffer r' ∧
      readWalEntry (walChecksum hash) path buffer.length (buffer.drop r.pos) =
        .ok (e, buffer.drop r'.pos) := by
  have hagrees := readEntryAt_agrees hash path h
  rw [hrun] at hagrees
  generalize hread : readWalEntry (walChecksum hash) path buffer.length (buffer.drop r.pos) = res
    at hagrees
  cases hagrees with
  | ok h' =>
    refine ⟨?_, h', rfl⟩
    have hlen := congrArg length (eq_writeEntry_of_readWalEntry hread).2
    have hpos := length_writeEntry_pos (walChecksum hash) e
    rw [length_append, length_drop, length_drop] at hlen
    omega

/-- The generator yields what the reader of `WalFile` does, and stays in the buffer. -/
theorem readWalFileGenerator_agrees (hash : Bytes → UInt64) (path : String) (h : ReaderOk buffer r)
    (fuel : ℕ) :
    (readWalFileGenerator hash path buffer fuel r).1 =
        readWalFile (walChecksum hash) path buffer.length fuel (buffer.drop r.pos) ∧
      ReaderOk buffer (readWalFileGenerator hash path buffer fuel r).2 := by
  induction fuel generalizing r with
  | zero => exact ⟨rfl, h⟩
  | succ fuel ih =>
    rw [readWalFileGenerator, readWalFile]
    by_cases hpos : r.pos < buffer.length
    · rw [if_pos hpos, if_neg (mt drop_eq_nil_iff.mp (Nat.not_le_of_lt hpos))]
      have hagrees := readEntryAt_agrees hash path h
      generalize (readEntryAt hash path buffer).run r = res at hagrees ⊢
      generalize readWalEntry (walChecksum hash) path buffer.length (buffer.drop r.pos) = res'
        at hagrees ⊢
      cases hagrees with
      | ok h' => exact ⟨congrArg _ (ih h').1, (ih h').2⟩
      | error h' => exact ⟨rfl, h'⟩
    · rw [if_neg hpos, if_pos (drop_eq_nil_iff.mpr (Nat.le_of_not_lt hpos))]
      exact ⟨rfl, h⟩

theorem readWalFileGenerator_fuel (h : ReaderOk buffer r) {fuel fuel' : ℕ}
    (hfuel : buffer.length - r.pos ≤ fuel) (hle : fuel ≤ fuel') :
    readWalFileGenerator hash path buffer fuel' r = readWalFileGenerator hash path buffer fuel r := by
  induction fuel generalizing r fuel' with
  | zero =>
    have hend : ¬ r.pos < buffer.length := by omega
    cases fuel' with
    | zero => rfl
    | succ fuel' =>
      rw [readWalFileGenerator, readWalFileGenerator]
      exact if_neg hend
  | succ fuel ih =>
    obtain ⟨fuel', rfl⟩ := Nat.exists_eq_add_of_le' (Nat.le_trans (Nat.succ_pos fuel) hle)
    rw [readWalFileGenerator, readWalFileGenerator]
    by_cases hpos : r.pos < buffer.length
    · rw [if_pos hpos, if_pos hpos]
      rcases hrun : (readEntryAt hash path buffer).run r with ⟨err | e, r'⟩
      · rfl
      · obtain ⟨hlt, h', -⟩ := pos_lt_of_readEntryAt h hrun
        dsimp only
        rw [ih h' (by omega) (Nat.le_of_succ_le_succ hle)]
    · rw [if_neg hpos, if_neg hpos]

end Reader

/-! ### The replay -/

/-- A directory entry, with its contents if it is a regular file. -/
structure DirEntry where
  name : String
  regular : Bool
  bytes : Bytes

def walFilePrefix : String := "log"

/-- The tests of `collect_wal_files`. -/
def DirEntry.isWal (f : DirEntry) : Bool :=
  f.regular && !f.bytes.isEmpty && walFilePrefix.toList.isPrefixOf f.name.toList

/-- `read_all_entries` before the sort. -/
def readEntries (hash : Bytes → UInt64) (pread : Bytes → Bytes) (files : List DirEntry) :
    Expected (List (WalEntry Bytes)) := do
  let items ← readFiles pread (fun path buffer =>
    (readWalFileGenerator hash path buffer buffer.length {}).1) (files.map fun f => (f.name, f.bytes))
  collectEntries items

/-- The loop of `wal::replay`: the calls of `on_entry`, each with what it returned. -/
def replayLoop {σ : Type} (onEntry : σ → WalEntry Bytes → Bool × σ) :
    σ → List (WalEntry Bytes) → List (WalEntry Bytes × Bool) × σ
  | s, [] => ([], s)
  | s, e :: es =>
      match onEntry s e with
      | (true, s) =>
          let (calls, s) := replayLoop onEntry s es
          ((e, true) :: calls, s)
      | (false, s) => ([(e, false)], s)

/-- `wal::replay` on the directory `dir`; `order` is the sort. -/
def replay {σ : Type} (hash : Bytes → UInt64) (pread : Bytes → Bytes) (order : SeqSort Bytes)
    (dir : List DirEntry) (onEntry : σ → WalEntry Bytes → Bool × σ) (s : σ) :
    Expected (List (WalEntry Bytes × Bool) × σ) := do
  let files := dir.filter DirEntry.isWal
  if files.isEmpty then return ([], s)
  let entries ← readEntries hash pread files
  return replayLoop onEntry s (order.sort entries)

/-- The directory holds the files that the calls of `append` have written, and no other WAL
files. -/
structure WalDir (hash : Bytes → UInt64) (appends : List WalAppend) (dir : List DirEntry) :
    Prop where
  nodup : (dir.map DirEntry.name).Nodup
  files : ∀ f ∈ dir, f.isWal = true → f.bytes = (appendAll hash appends).files f.name
  written : ∀ a ∈ appends, ∃ f ∈ dir, f.name = a.file ∧ f.isWal = true

theorem replayLoop_calls {σ : Type} (onEntry : σ → WalEntry Bytes → Bool × σ) (s : σ)
    (es : List (WalEntry Bytes)) :
    (replayLoop onEntry s es).1.map Prod.fst <+: es ∧
      ((∀ c ∈ (replayLoop onEntry s es).1, c.2 = true) →
        (replayLoop onEntry s es).1.map Prod.fst = es) := by
  induction es generalizing s with
  | nil => exact ⟨prefix_rfl, fun _ => rfl⟩
  | cons e es ih =>
    rw [replayLoop]
    rcases onEntry s e with ⟨- | -, s'⟩
    · refine ⟨prefix_cons_inj e |>.mpr ⟨es, rfl⟩, fun hall => ?_⟩
      cases hall (e, false) mem_cons_self
    · obtain ⟨hinit, hfull⟩ := ih s'
      refine ⟨prefix_cons_inj e |>.mpr hinit, fun hall => ?_⟩
      exact congrArg (e :: ·) (hfull fun c hc => hall c (mem_cons_of_mem _ hc))

theorem perm_entriesOf (appends : List WalAppend) {names : List String} (hnodup : names.Nodup)
    (hall : ∀ a ∈ appends, a.file ∈ names) :
    (names.flatMap (entriesOf appends)).Perm (appends.map WalAppend.entry) := by
  induction names generalizing appends with
  | nil =>
    obtain rfl : appends = [] :=
      eq_nil_iff_forall_not_mem.mpr fun a ha => absurd (hall a ha) not_mem_nil
    exact Perm.nil
  | cons name names ih =>
    obtain ⟨hname, hnodup'⟩ := nodup_cons.mp hnodup
    -- the entries of the other files, without those of `name`
    have hothers : ∀ file ∈ names, entriesOf appends file =
        entriesOf (appends.filter fun a => !decide (a.file = name)) file := by
      intro file hfile
      have hne : file ≠ name := fun h => hname (h ▸ hfile)
      rw [entriesOf, entriesOf, filter_filter]
      refine congrArg _ (filter_congr fun a _ => ?_)
      by_cases ha : a.file = file <;> simp [ha, hne]
    have hrest := ih (appends.filter fun a => !decide (a.file = name)) hnodup' fun a ha => by
      obtain ⟨hmem, hne⟩ := mem_filter.mp ha
      exact (mem_cons.mp (hall a hmem)).resolve_left (by simpa using hne)
    rw [flatMap_cons, flatMap_congr hothers]
    refine (Perm.append_left _ hrest).trans ?_
    rw [entriesOf, ← map_append]
    exact (filter_append_perm _ appends).map _

theorem readEntries_eq {hash : Bytes → UInt64} {pread : Bytes → Bytes} {appends : List WalAppend}
    {files : List DirEntry} (hfits : ∀ a ∈ appends, a.entry.FitsFields)
    (hfiles : ∀ f ∈ files, f.bytes = (appendAll hash appends).files f.name)
    (hpread : ∀ f ∈ files, ReadsWhole pread f.bytes) :
    readEntries hash pread files = .ok ((files.map DirEntry.name).flatMap (entriesOf appends)) := by
  have hread : ((files.map fun f => (f.name, f.bytes)).flatMap fun f =>
      (readWalFileGenerator hash f.1 f.2 f.2.length {}).1) =
        ((files.map DirEntry.name).flatMap (entriesOf appends)).map .ok := by
    rw [flatMap_map, flatMap_map, map_flatMap]
    refine flatMap_congr fun f hf => ?_
    have hstart : ReaderOk f.bytes {} := ⟨Nat.zero_le _, rfl, nofun⟩
    rw [(readWalFileGenerator_agrees hash f.name hstart f.bytes.length).1]
    have hbytes := (hfiles f hf).trans (appendAll_files hash appends f.name)
    show readWalFile _ _ _ _ f.bytes = _
    rw [hbytes]
    refine readWalFile_eq _ _ _ (fun e he => ?_) le_rfl
    obtain ⟨a, ha, rfl⟩ := mem_map.mp he
    exact hfits a (mem_filter.mp ha).1
  rw [readEntries, readFiles_eq (fun _ => rfl) (forall_mem_map.mpr hpread), hread, ok_bind,
    collectEntries_map_ok]

theorem replay_eq {hash : Bytes → UInt64} {pread : Bytes → Bytes} {appends : List WalAppend}
    {dir : List DirEntry} (hfits : ∀ a ∈ appends, a.entry.FitsFields)
    (hdir : WalDir hash appends dir) (hpread : ∀ f ∈ dir, ReadsWhole pread f.bytes)
    (order : SeqSort Bytes) :
    ∃ es, es.Perm (appends.map WalAppend.entry) ∧
      ∀ {σ : Type} (onEntry : σ → WalEntry Bytes → Bool × σ) (s : σ),
        replay hash pread order dir onEntry s = .ok (replayLoop onEntry s (order.sort es)) := by
  set files := dir.filter DirEntry.isWal with hfilesEq
  have hread : readEntries hash pread files =
      .ok ((files.map DirEntry.name).flatMap (entriesOf appends)) :=
    readEntries_eq hfits (fun f hf => hdir.files f (mem_filter.mp hf).1 (mem_filter.mp hf).2)
      fun f hf => hpread f (mem_filter.mp hf).1
  refine ⟨(files.map DirEntry.name).flatMap (entriesOf appends), ?_, fun onEntry s => ?_⟩
  · refine perm_entriesOf appends (hdir.nodup.sublist (filter_sublist.map _)) fun a ha => ?_
    obtain ⟨f, hf, hname, hwal⟩ := hdir.written a ha
    exact hname ▸ mem_map_of_mem (mem_filter.mpr ⟨hf, hwal⟩)
  · rw [replay]
    by_cases hempty : files = []
    · have hsort : order.sort [] = [] := perm_nil.mp (order.perm [])
      rw [← hfilesEq, hempty]
      simp only [map_nil, flatMap_nil, hsort]
      rfl
    · rw [← hfilesEq, if_neg (by simpa using hempty), hread]
      rfl

/-- **The WAL codec is exact and replay is a total order.**  Entries whose lengths fit their
fields and whose numbers are distinct, appended by any threads to any files that are read
whole, are handed to `on_entry` once each in increasing order, up to the first call that
returns `false`.  And for every file the reader terminates and stays inside the buffer; if
the file is read whole, it yields no error only if the file is the concatenation of the
encodings of what it yields. -/
theorem wal_replay_exact (hash : Bytes → UInt64) (pread : Bytes → Bytes) :
    (∀ (appends : List WalAppend) (dir : List DirEntry) (order : SeqSort Bytes),
        (∀ a ∈ appends, a.entry.FitsFields) →
        (appends.map fun a => a.entry.seqNr).Nodup → WalDir hash appends dir →
        (∀ f ∈ dir, ReadsWhole pread f.bytes) →
        ∃ es, es.Perm (appends.map WalAppend.entry) ∧
          es.Pairwise (fun a b => a.seqNr < b.seqNr) ∧
          ∀ {σ : Type} (onEntry : σ → WalEntry Bytes → Bool × σ) (s : σ), ∃ calls s',
            replay hash pread order dir onEntry s = .ok (calls, s') ∧ calls.map Prod.fst <+: es ∧
              ((∀ c ∈ calls, c.2 = true) → calls.map Prod.fst = es)) ∧
      ∀ (path : String) (file buffer : Bytes), pread file = buffer →
        (∀ fuel ≥ buffer.length, readWalFileGenerator hash path buffer fuel {} =
            readWalFileGenerator hash path buffer buffer.length {}) ∧
          (∀ x ∈ (readWalFileGenerator hash path buffer buffer.length {}).2.reads,
            x.1 + x.2 ≤ buffer.length) ∧
          ∀ es : List (WalEntry Bytes), ReadsWhole pread file →
            (readWalFileGenerator hash path buffer buffer.length {}).1 = es.map .ok →
            file = es.flatMap fun e => (writeEntryWith hash {} e).1 := by
  refine ⟨fun appends dir order hfits hnodup hdir hpread => ?_, fun path file buffer hread => ?_⟩
  · obtain ⟨es, hperm, hreplay⟩ := replay_eq hfits hdir hpread order
    have hnodup' : (es.map WalEntry.seqNr).Nodup := by
      refine (hperm.map WalEntry.seqNr).nodup_iff.mpr ?_
      rw [map_map]
      exact hnodup
    refine ⟨order.sort es, (order.perm es).trans hperm, order.sorted_lt hnodup', ?_⟩
    intro σ onEntry s
    obtain ⟨hinit, hfull⟩ := replayLoop_calls onEntry s (order.sort es)
    exact ⟨_, _, hreplay onEntry s, hinit, hfull⟩
  · have hstart : ReaderOk buffer {} := ⟨Nat.zero_le _, rfl, nofun⟩
    obtain ⟨hagrees, hok⟩ := readWalFileGenerator_agrees hash path hstart buffer.length
    refine ⟨fun fuel hfuel => readWalFileGenerator_fuel hstart le_rfl hfuel, hok.reads,
      fun es hwhole hes => ?_⟩
    have hbytes := (eq_walFileBytes_of_readWalFile le_rfl (hagrees.symm.trans hes)).2
    simp only [writeEntryWith_fresh]
    exact (hwhole.symm.trans hread).trans hbytes

/-- Two threads append to two files. -/
def twoFiles : List WalAppend :=
  [ ⟨0, "log.0.0", ⟨3, [7], [1, 30]⟩⟩, ⟨1, "log.1.0", ⟨1, [7, 7], [1, 10]⟩⟩,
    ⟨1, "log.0.0", ⟨2, [8], []⟩⟩ ]

def lengthHash (bytes : Bytes) : UInt64 := UInt64.ofNat bytes.length

/-- The directory, in which there are also an empty WAL file and another file. -/
def twoFilesDir : List DirEntry :=
  [ ⟨"log.1.0", true, (appendAll lengthHash twoFiles).files "log.1.0"⟩, ⟨"log.2.0", true, []⟩,
    ⟨"log.0.0", true, (appendAll lengthHash twoFiles).files "log.0.0"⟩, ⟨"MANIFEST", true, [1]⟩ ]

theorem wal_replay_exact_two_files : ∃ es, es.Perm (twoFiles.map WalAppend.entry) ∧
    es.Pairwise (fun a b => a.seqNr < b.seqNr) ∧ ∃ calls s',
      replay lengthHash id SeqSort.insertion twoFilesDir (fun n _ => (true, n + 1)) 0 = .ok (calls, s') ∧
        ((∀ c ∈ calls, c.2 = true) → calls.map Prod.fst = es) := by
  have hdir : WalDir lengthHash twoFiles twoFilesDir :=
    ⟨by decide +kernel, by decide +kernel, by decide +kernel⟩
  obtain ⟨es, hperm, hsorted, hreplay⟩ := (wal_replay_exact lengthHash id).1 twoFiles twoFilesDir
    SeqSort.insertion (by decide +kernel) (by decide +kernel) hdir fun _ _ => rfl
  obtain ⟨calls, s', hrun, -, hfull⟩ := hreplay (fun n _ => (true, n + 1)) 0
  exact ⟨es, hperm, hsorted, calls, s', hrun, hfull⟩

end HedgeDB
