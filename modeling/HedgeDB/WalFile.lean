/-
HedgeDB/WalFile.lean

The bytes of a WAL file (`src/db/wal.cc`).

An entry is its sequence number, the length of its key less one, the key, the length
of its value in two bytes, the value and a checksum of all of it.  Lengths that do
not fit their field are cut.  The reader goes through a file entry by entry and
stops at the first one it cannot read; one such entry in any file and the replay
throws.

`readAllEntries_eq` says that files of entries whose lengths fit are read back, for
every checksum function.
-/
import HedgeDB.Block
import HedgeDB.Wal

namespace HedgeDB

open ByteCodec List

/-- The part of an entry the checksum is taken of. -/
def walEntryBody (e : WalEntry Bytes) : Bytes :=
  le 8 e.seqNr ++ (encodeKeySize e.key.length :: e.key ++ (le 2 e.value.length ++ e.value))

def writeEntry (checksum : Bytes → UInt32) (e : WalEntry Bytes) : Bytes :=
  walEntryBody e ++ le 4 (checksum (walEntryBody e)).toNat

def walFileBytes (checksum : Bytes → UInt32) (es : List (WalEntry Bytes)) : Bytes :=
  es.flatMap (writeEntry checksum)

/-! ### The reader -/

/-- `read_from_buf` and the error when the file ends too early: `n` bytes and the
position behind them, in a file of `size` bytes. -/
def readField (path : String) (size : ℕ) (field : String) (n : ℕ) (pos : Bytes) :
    Expected (Bytes × Bytes) :=
  if n ≤ pos.length then .ok (pos.take n, pos.drop n)
  else
    .error { msg := "incomplete WAL entry " ++ field ++ " in file " ++ path ++
      " at offset " ++ toString (size - pos.length) }

def checkKeySize (path : String) (size : ℕ) (encodedKeySize : UInt8) (pos : Bytes) :
    Expected Unit :=
  if decodeKeySize encodedKeySize > maxKeyLen then
    .error { msg := "invalid encoded key size " ++ toString encodedKeySize ++
      " in WAL entry in file " ++ path ++ " at offset " ++ toString (size - pos.length) }
  else .ok ()

/-- The comparison of the stored checksum with the computed one. -/
def checkSum (path : String) (seqNr : ℕ) (expected : ℕ) (computed : UInt32) : Expected Unit :=
  if expected ≠ computed.toNat then
    .error { msg := "checksum mismatch for WAL entry with seq_nr " ++ toString seqNr ++
      " in file " ++ path ++ ": expected " ++ toString expected ++ ", computed " ++
      toString computed }
  else .ok ()

/-- One round of the loop of `read_wal_file_generator`. -/
def readWalEntry (checksum : Bytes → UInt32) (path : String) (size : ℕ) (pos : Bytes) :
    Expected (WalEntry Bytes × Bytes) := do
  let (seqNr, pos) ← readField path size "sequence number" 8 pos
  let (encodedKeySize, pos) ← readField path size "key size" 1 pos
  checkKeySize path size (encodedKeySize.headD 0) pos
  let (key, pos) ← readField path size "key" (decodeKeySize (encodedKeySize.headD 0)) pos
  let (valueSize, pos) ← readField path size "value size" 2 pos
  let (value, pos) ← readField path size "value" (ofLe valueSize) pos
  let (sum, pos) ← readField path size "checksum" 4 pos
  checkSum path (ofLe seqNr) (ofLe sum)
    (checksum (seqNr ++ (encodedKeySize ++ key ++ (valueSize ++ value))))
  return (⟨ofLe seqNr, key, value⟩, pos)

/-- `read_wal_file_generator`: an entry takes at least one byte, so that the size of
the file bounds the rounds. -/
def readWalFile (checksum : Bytes → UInt32) (path : String) (size : ℕ) :
    ℕ → Bytes → List (Expected (WalEntry Bytes))
  | 0, _ => []
  | fuel + 1, pos =>
      if pos = [] then []
      else
        match readWalEntry checksum path size pos with
        | .error err => [.error err]
        | .ok (e, rest) => .ok e :: readWalFile checksum path size fuel rest

/-- The entries among what the reader found, or the exception if there was an error. -/
def collectEntries : List (Expected (WalEntry Bytes)) → Expected (List (WalEntry Bytes))
  | [] => .ok []
  | .ok e :: items => (collectEntries items).map (e :: ·)
  | .error _ :: _ =>
      .error { msg := "Errors occurred while reading WAL files; see log for details" }

/-- The files of `read_all_entries`.  An empty one is not collected; of another, the buffer
is what one `pread` of the whole file transfers, and `reader` yields its entries. -/
def readFiles (pread : Bytes → Bytes)
    (reader : String → Bytes → List (Expected (WalEntry Bytes))) :
    List (String × Bytes) → Expected (List (Expected (WalEntry Bytes)))
  | [] => .ok []
  | (path, file) :: files =>
      if file = [] then readFiles pread reader files
      else if pread file = [] then .error { msg := "failed to read wal file " ++ path }
      else (readFiles pread reader files).map (reader path (pread file) ++ ·)

/-- The `pread` of a file transfers all of it, as Linux does up to `0x7ffff000` bytes; the
reader does not compare the two sizes. -/
def ReadsWhole (pread : Bytes → Bytes) (file : Bytes) : Prop := pread file = file

/-- `read_all_entries` before the sort. -/
def readAllEntries (checksum : Bytes → UInt32) (pread : Bytes → Bytes)
    (files : List (String × Bytes)) : Expected (List (WalEntry Bytes)) := do
  let items ← readFiles pread (fun path buffer =>
    readWalFile checksum path buffer.length buffer.length buffer) files
  collectEntries items

/-- `memtable::replay_wal` on the WAL files found at load. -/
def replayFiles (checksum : Bytes → UInt32) (pread : Bytes → Bytes) (config : LoadConfig Bytes)
    (skipUpToSeqNr : Option ℕ) (files : List (String × Bytes)) (db : Database Bytes) :
    Expected (Database Bytes) := do
  let entries ← readAllEntries checksum pread files
  replayWal config skipUpToSeqNr entries db

theorem SeqSort.sorted_lt (order : SeqSort Bytes) {es : List (WalEntry Bytes)}
    (hnodup : (es.map WalEntry.seqNr).Nodup) :
    (order.sort es).Pairwise fun a b => a.seqNr < b.seqNr := by
  have hnodup' : ((order.sort es).map WalEntry.seqNr).Nodup :=
    ((order.perm es).map WalEntry.seqNr).nodup_iff.mpr hnodup
  exact ((order.sorted es).and (pairwise_map.mp hnodup')).imp
    fun h => lt_of_le_of_ne h.1 h.2

/-! ### Reading back -/

/-- The numbers of an entry fit their fields. -/
structure WalEntry.FitsFields (e : WalEntry Bytes) : Prop where
  seqNr : e.seqNr < 2 ^ 64
  key : 1 ≤ e.key.length ∧ e.key.length ≤ maxKeyLen
  value : e.value.length < 2 ^ 16

instance (e : WalEntry Bytes) : Decidable e.FitsFields :=
  decidable_of_iff
    (e.seqNr < 2 ^ 64 ∧ (1 ≤ e.key.length ∧ e.key.length ≤ maxKeyLen) ∧ e.value.length < 2 ^ 16)
    ⟨fun h => ⟨h.1, h.2.1, h.2.2⟩, fun h => ⟨h.seqNr, h.key, h.value⟩⟩

theorem readField_append (path : String) (size : ℕ) (field : String) {n : ℕ} {bytes : Bytes}
    (rest : Bytes) (h : bytes.length = n) :
    readField path size field n (bytes ++ rest) = .ok (bytes, rest) := by
  rw [readField, if_pos (by simp [h]), take_left' h, drop_left' h]

variable (checksum : Bytes → UInt32)

/-- **An entry is read back.** -/
theorem readWalEntry_writeEntry (path : String) (size : ℕ) {e : WalEntry Bytes} (h : e.FitsFields)
    (rest : Bytes) :
    readWalEntry checksum path size (writeEntry checksum e ++ rest) = .ok (e, rest) := by
  obtain ⟨seqNr, key, value⟩ := e
  obtain ⟨hseq, hkey, hvalue⟩ := h
  have hnumber : ofLe (le 8 seqNr) = seqNr := ofLe_le_of_lt (by norm_num; exact hseq)
  have hlength : ofLe (le 2 value.length) = value.length := ofLe_le_of_lt (by norm_num; exact hvalue)
  have hkeySize : ∀ pos, checkKeySize path size (encodeKeySize key.length) pos = .ok () := by
    intro pos
    rw [checkKeySize, decodeKeySize_encodeKeySize hkey, if_neg hkey.2.not_gt]
  have hsum : ∀ sum : UInt32, checkSum path seqNr (ofLe (le 4 sum.toNat)) sum = .ok () := by
    intro sum
    rw [checkSum, ofLe_le_of_lt (by norm_num; exact sum.toNat_lt), if_neg (not_not.mpr rfl)]
  -- the bytes, field by field
  have hsplit : writeEntry checksum ⟨seqNr, key, value⟩ ++ rest =
      le 8 seqNr ++ ([encodeKeySize key.length] ++ (key ++ (le 2 value.length ++ (value ++
        (le 4 (checksum (walEntryBody ⟨seqNr, key, value⟩)).toNat ++ rest))))) := by
    simp [writeEntry, walEntryBody]
  rw [hsplit, readWalEntry, readField_append path size _ _ (length_le 8 _), ok_bind]
  dsimp only
  rw [readField_append path size _ _ length_singleton, ok_bind]
  dsimp only [headD_cons]
  rw [hkeySize, ok_bind, decodeKeySize_encodeKeySize hkey, readField_append path size _ _ rfl, ok_bind]
  dsimp only
  rw [readField_append path size _ _ (length_le 2 _), ok_bind]
  dsimp only
  rw [hlength, readField_append path size _ _ rfl, ok_bind]
  dsimp only
  rw [readField_append path size _ _ (length_le 4 _), ok_bind]
  dsimp only
  rw [hnumber]
  exact hsum _ ▸ rfl

theorem length_writeEntry_pos (e : WalEntry Bytes) : 0 < (writeEntry checksum e).length := by
  simp [writeEntry, walEntryBody]

theorem readWalFile_eq (path : String) (size : ℕ) {es : List (WalEntry Bytes)}
    (h : ∀ e ∈ es, e.FitsFields) {fuel : ℕ} (hfuel : (walFileBytes checksum es).length ≤ fuel) :
    readWalFile checksum path size fuel (walFileBytes checksum es) = es.map .ok := by
  induction es generalizing fuel with
  | nil => cases fuel <;> rfl
  | cons e es ih =>
    have hpos := length_writeEntry_pos checksum e
    have hbytes : walFileBytes checksum (e :: es) =
        writeEntry checksum e ++ walFileBytes checksum es := rfl
    rw [hbytes, length_append] at hfuel
    rcases fuel with - | fuel
    · omega
    · have hne : writeEntry checksum e ++ walFileBytes checksum es ≠ [] := by
        intro hnil
        rw [(append_eq_nil_iff.mp hnil).1] at hpos
        exact absurd hpos (by decide)
      rw [hbytes, readWalFile, if_neg hne, readWalEntry_writeEntry checksum path size (h e (by simp))]
      simp only [map_cons]
      rw [ih (fun e' he' => h e' (mem_cons_of_mem _ he')) (by omega)]

theorem collectEntries_map_ok (es : List (WalEntry Bytes)) :
    collectEntries (es.map .ok) = .ok es := by
  induction es with
  | nil => rfl
  | cons e es ih => rw [map_cons, collectEntries, ih]; rfl

theorem readFiles_eq {pread : Bytes → Bytes}
    {reader : String → Bytes → List (Expected (WalEntry Bytes))}
    (hnil : ∀ path, reader path [] = []) {files : List (String × Bytes)}
    (h : ∀ f ∈ files, ReadsWhole pread f.2) :
    readFiles pread reader files = .ok (files.flatMap fun f => reader f.1 f.2) := by
  induction files with
  | nil => rfl
  | cons f files ih =>
    obtain ⟨path, file⟩ := f
    obtain ⟨hfile, hfiles⟩ := forall_mem_cons.mp h
    have hread : pread file = file := hfile
    rw [readFiles, ih hfiles, hread, flatMap_cons]
    by_cases hempty : file = []
    · rw [if_pos hempty, hempty, hnil, nil_append]
    · rw [if_neg hempty, if_neg hempty]
      rfl

/-- **Files of entries that fit their fields are read back.** -/
theorem readAllEntries_eq {pread : Bytes → Bytes}
    {files : List (String × List (WalEntry Bytes))}
    (h : ∀ f ∈ files, ∀ e ∈ f.2, e.FitsFields)
    (hpread : ∀ f ∈ files, ReadsWhole pread (walFileBytes checksum f.2)) :
    readAllEntries checksum pread (files.map fun f => (f.1, walFileBytes checksum f.2)) =
      .ok (files.flatMap Prod.snd) := by
  have hread : (files.map fun f => (f.1, walFileBytes checksum f.2)).flatMap
      (fun f => readWalFile checksum f.1 f.2.length f.2.length f.2) =
        (files.flatMap Prod.snd).map .ok := by
    rw [flatMap_map, map_flatMap]
    exact flatMap_congr fun f hf => readWalFile_eq checksum _ _ (h f hf) le_rfl
  rw [readAllEntries, readFiles_eq (fun _ => rfl) (forall_mem_map.mpr hpread), hread, ok_bind,
    collectEntries_map_ok]

/-! ### What is read -/

variable {path : String} {pos : Bytes} {size : ℕ}

theorem append_of_readField {field : String} {m : ℕ} {bytes rest : Bytes}
    (h : readField path size field m pos = .ok (bytes, rest)) :
    bytes.length = m ∧ pos = bytes ++ rest := by
  rw [readField] at h
  split at h
  · next hle =>
    cases h
    exact ⟨length_take_of_le hle, (take_append_drop m pos).symm⟩
  · cases h

/-- **What is read is an encoding**: an entry that is read without an error fits its
fields, and its bytes are those `_write_entry` writes for it. -/
theorem eq_writeEntry_of_readWalEntry {checksum : Bytes → UInt32} {rest : Bytes}
    {e : WalEntry Bytes} (h : readWalEntry checksum path size pos = .ok (e, rest)) :
    e.FitsFields ∧ pos = writeEntry checksum e ++ rest := by
  obtain ⟨⟨seqNr, pos₁⟩, hseqNr, h⟩ := ok_of_bind h
  obtain ⟨⟨encodedKeySize, pos₂⟩, hkeySize, h⟩ := ok_of_bind h
  obtain ⟨-, -, h⟩ := ok_of_bind h
  obtain ⟨⟨key, pos₃⟩, hkey, h⟩ := ok_of_bind h
  obtain ⟨⟨valueSize, pos₄⟩, hsize, h⟩ := ok_of_bind h
  obtain ⟨⟨value, pos₅⟩, hvalue, h⟩ := ok_of_bind h
  obtain ⟨⟨sum, pos₆⟩, hsum, h⟩ := ok_of_bind h
  obtain ⟨⟨⟩, hcheck, h⟩ := ok_of_bind h
  cases h
  obtain ⟨hlen₁, rfl⟩ := append_of_readField hseqNr
  obtain ⟨hlen₂, rfl⟩ := append_of_readField hkeySize
  obtain ⟨hlen₃, rfl⟩ := append_of_readField hkey
  obtain ⟨hlen₄, rfl⟩ := append_of_readField hsize
  obtain ⟨hlen₅, rfl⟩ := append_of_readField hvalue
  obtain ⟨hlen₆, rfl⟩ := append_of_readField hsum
  obtain ⟨b, rfl⟩ := length_eq_one_iff.mp hlen₂
  -- every length field is the one the writer computes
  have hnumber : le 8 (ofLe seqNr) = seqNr := hlen₁ ▸ le_ofLe seqNr
  have hencoded : encodeKeySize key.length = b := by
    rw [hlen₃]
    exact encodeKeySize_decodeKeySize b
  have hlength : le 2 value.length = valueSize := by
    rw [hlen₅]
    exact hlen₄ ▸ le_ofLe valueSize
  have hbody : walEntryBody ⟨ofLe seqNr, key, value⟩ =
      seqNr ++ ([b] ++ key ++ (valueSize ++ value)) := by
    rw [walEntryBody, hnumber, hencoded, hlength]
    rfl
  have hstored : le 4 (checksum (walEntryBody ⟨ofLe seqNr, key, value⟩)).toNat = sum := by
    have heq : ofLe sum = (checksum (seqNr ++ ([b] ++ key ++ (valueSize ++ value)))).toNat := by
      by_contra hne
      have hmismatch := hcheck.symm.trans (if_pos hne)
      cases hmismatch
    rw [hbody, ← heq]
    exact hlen₆ ▸ le_ofLe sum
  refine ⟨⟨?_, ?_, ?_⟩, ?_⟩
  · have := ofLe_lt seqNr
    rw [hlen₁] at this
    exact this
  · have hb : b.toNat < 256 := b.toNat_lt
    have hlen : key.length = b.toNat + 1 := hlen₃
    rw [maxKeyLen]
    show 1 ≤ key.length ∧ key.length ≤ 256
    omega
  · have := ofLe_lt valueSize
    rw [hlen₄] at this
    show value.length < 2 ^ 16
    rw [hlen₅]
    exact this
  · rw [writeEntry, hstored, hbody]
    simp only [append_assoc]

/-- A file that is read without an error is the concatenation of the encodings of what was
read. -/
theorem eq_walFileBytes_of_readWalFile {checksum : Bytes → UInt32} {fuel : ℕ}
    {es : List (WalEntry Bytes)} (hfuel : pos.length ≤ fuel)
    (h : readWalFile checksum path size fuel pos = es.map .ok) :
    (∀ e ∈ es, e.FitsFields) ∧ pos = walFileBytes checksum es := by
  induction fuel generalizing pos es with
  | zero =>
    obtain rfl := length_eq_zero_iff.mp (Nat.le_zero.mp hfuel)
    obtain rfl := map_eq_nil_iff.mp h.symm
    exact ⟨nofun, rfl⟩
  | succ fuel ih =>
    rw [readWalFile] at h
    split at h
    · next hpos =>
      obtain rfl := map_eq_nil_iff.mp h.symm
      exact ⟨nofun, hpos⟩
    · rcases hround : readWalEntry checksum path size pos with err | ⟨e, rest⟩
      · rw [hround] at h
        cases es with
        | nil => cases h
        | cons e' es => cases (cons.inj h).1
      · rw [hround] at h
        cases es with
        | nil => cases h
        | cons e' es =>
          obtain ⟨heq, hrest⟩ := cons.inj h
          cases heq
          obtain ⟨hfits, hbytes⟩ := eq_writeEntry_of_readWalEntry hround
          have hpos := length_writeEntry_pos checksum e
          have hlen := congrArg length hbytes
          rw [length_append] at hlen
          obtain ⟨hall, hrest'⟩ := ih (by omega) hrest
          refine ⟨fun e' he' => ?_, ?_⟩
          · rcases mem_cons.mp he' with rfl | hmem
            · exact hfits
            · exact hall e' hmem
          · rw [hbytes, hrest']
            rfl

end HedgeDB
