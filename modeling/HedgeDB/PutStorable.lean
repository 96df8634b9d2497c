/-
HedgeDB/PutStorable.lean

What `put_async` takes and what the layers below can keep (`src/db/memtable.cc`,
`src/db/wal.cc`, `src/db/block.cc`, `src/utils.h`).

`put_async` looks at no length: a round of its loop ends with `ok` as soon as the
arena, the skip list and the budget of the table have room and the record is in the
log.  The layers below have limits.  The log keeps the length of a key in a byte and
that of a value in two.  The block encoder takes keys of 1 to 256 bytes, and an entry
has to fit an empty block.  The partition of a key is found from its first two bytes;
a key of one byte has only one, and the other is what the inline buffer of the
`key_t` held before.

`put_storable_iff` says which entries all of them keep.
-/
import HedgeDB.FlushFiles
import HedgeDB.WalFile

namespace HedgeDB

open KeyedList List

/-! ### A round of put_async -/

/-- `memtable_config`, with the exponent that `database` checks. -/
structure PutConfig where
  memoryBudgetCap : ℕ
  useWal : Bool
  numPartitionExponent : ℕ
  exponent_le : numPartitionExponent ≤ 16

/-- `write_buffer`, with the arena and the log file of the thread that writes. -/
structure WriteBuffer where
  contents : Skiplist Bytes := .empty
  bytesWritten : ℕ := 0
  valueArena : Arena
  walFile : Bytes := []

/-- What a round finds outside: whether the skip list gets memory for a node, and
what `pwritev2` returns. -/
structure PutEnv where
  nodeAllocated : Bool
  pwritev2 : Except String ℕ

/-- How a round ends: `put_async` returns, or hands the table to `_flush` and tries
again. -/
inductive PutRound
  | returned (status : Expected Unit)
  | flushed

/-- `wal::append`. -/
def walAppend (checksum : Bytes → UInt32) (pwritev2 : Except String ℕ) (file : Bytes)
    (e : WalEntry Bytes) : Expected Unit × Bytes :=
  let entry := writeEntry checksum e
  match pwritev2 with
  | .error errno => (.error { msg := "could not write into wal: " ++ errno }, file)
  | .ok res =>
      if res ≠ entry.length then
        (.error { msg := "partial write into wal: " ++ toString res ++ " != " ++
          toString entry.length }, file ++ entry.take res)
      else (.ok (), file ++ entry)

/-- The entry that `put_async` inserts. -/
def putEntry (seqNr : UInt64) (key value : Bytes) (type : ValueType) : MemtableEntry Bytes :=
  ⟨key, seqNr.toNat, encodeValue type value⟩

/-- The log record of an entry. -/
def MemtableEntry.toWalEntry (e : MemtableEntry Bytes) : WalEntry Bytes := ⟨e.seq, e.key, e.value⟩

/-- One round of `put_async` on a table that admitted it, with `_seq_nr`. -/
def putRound (checksum : Bytes → UInt32) (cfg : PutConfig) (env : PutEnv) (key value : Bytes)
    (type : ValueType) (seqNr : UInt64) (t : WriteBuffer) : PutRound × UInt64 × WriteBuffer :=
  match t.valueArena.allocateMany (value.length + 1) valueDataAlignment with
  | (none, valueArena) => (.flushed, seqNr, { t with valueArena })
  | (some _, valueArena) =>
      -- the number is drawn before the node is allocated
      if env.nodeAllocated = false then (.flushed, seqNr + 1, { t with valueArena })
      else
        let e := putEntry seqNr key value type
        let t' := { t with
          valueArena
          contents := t.contents.insert e
          bytesWritten := t.bytesWritten + (key.length + value.length + 1) }
        if t.bytesWritten > cfg.memoryBudgetCap then (.flushed, seqNr + 1, t')
        else if cfg.useWal = false then (.returned (.ok ()), seqNr + 1, t')
        else
          let r := walAppend checksum env.pwritev2 t.walFile e.toWalEntry
          (.returned r.1, seqNr + 1, { t' with walFile := r.2 })

variable {key : Bytes}

theorem putRound_ok {checksum : Bytes → UInt32} {cfg : PutConfig} {env : PutEnv} {value : Bytes}
    {type : ValueType} {seqNr seqNr' : UInt64} {t t' : WriteBuffer}
    (h : putRound checksum cfg env key value type seqNr t = (.returned (.ok ()), seqNr', t')) :
    t'.contents = t.contents.insert (putEntry seqNr key value type) ∧
      (cfg.useWal = true → t'.walFile =
        t.walFile ++ writeEntry checksum (putEntry seqNr key value type).toWalEntry) := by
  unfold putRound at h
  split at h
  · cases h
  · split at h
    · cases h
    · dsimp only at h
      split at h
      · cases h
      · split at h
        · next hwal =>
          cases h
          exact ⟨rfl, fun huse => absurd huse (by simp [hwal])⟩
        · obtain ⟨hret, hrest⟩ := Prod.mk.inj h
          obtain ⟨-, rfl⟩ := Prod.mk.inj hrest
          refine ⟨rfl, fun _ => ?_⟩
          have hstatus := PutRound.returned.inj hret
          unfold walAppend at hstatus ⊢
          dsimp only at hstatus ⊢
          split at hstatus
          · cases hstatus
          · split at hstatus
            · cases hstatus
            · next hres => rw [if_neg hres]

/-! ### Partitions of stored keys -/

/-- A key in its storage: behind the bytes of a short key comes what the inline
buffer held before. -/
def MemtableEntry.store (leftover : MemtableEntry Bytes → Bytes) (e : MemtableEntry Bytes) :
    MemtableEntry (Bytes × Bytes) :=
  ⟨(e.key, leftover e), e.seq, e.value⟩

def MemtableEntry.unstore (e : MemtableEntry (Bytes × Bytes)) : MemtableEntry Bytes :=
  ⟨e.key.1, e.seq, e.value⟩

/-- `_partition_ranges_generator` on entries in their storage. -/
def storedRanges (part : Bytes → ℕ) (leftover : MemtableEntry Bytes → Bytes)
    (es : List (MemtableEntry Bytes)) : List (ℕ × List (MemtableEntry Bytes)) :=
  (partitionRanges (fun k : Bytes × Bytes => part (k.1 ++ k.2)) (es.map (·.store leftover))).map
    fun range => (range.1, range.2.map MemtableEntry.unstore)

/-- `index_ops::flush_memtable`, as `flushFiles`, with the partitions that the stored
keys give. -/
def flushStored (checksum : Bytes → UInt32) (buf : ℕ → PageBuffer)
    (leftover : MemtableEntry Bytes → Bytes) (numPartitionExponent flushIteration : ℕ)
    (entries : List (MemtableEntry Bytes)) : Expected (List SstFile) :=
  if numPartitionExponent > 16 then
    .error { msg := "Number of partitions exponent must be less than or equal to 16" }
  else
    flushRanges checksum buf flushIteration
      (storedRanges (findMatchingPartitionForKey numPartitionExponent) leftover entries)

/-- Entries that the layers below the table can keep: a block can take them, and if a
partition is smaller than the keys of one first byte, the key has two. -/
def Storable (numPartitionExponent : ℕ) (e : MemtableEntry Bytes) : Prop :=
  Writable e ∧ (8 < numPartitionExponent → 2 ≤ e.key.length)

/-- What is expected of the layers below for an entry that `put_async` took: its
record is read back, an empty block takes it, and a flush of a table with it does not
fail because of it. -/
structure KeptBelow (walChecksum checksum : Bytes → UInt32) (cfg : PutConfig) (entry : Bytes)
    (x : MemtableEntry Bytes) : Prop where
  wal : cfg.useWal = true → ∀ path size,
    readWalEntry walChecksum path size entry = .ok (x.toWalEntry, [])
  block : ∀ page : Bytes, page.length = pageSizeInBytes →
    ((BlockEncoder.reset page).push checksum blockConfig x.key x.value).1 = .ok ()
  flush : ∀ table : Skiplist Bytes, x ∈ table.entries →
    (∀ a ∈ table.entries, a ≠ x → Storable cfg.numPartitionExponent a) →
    ∀ buf leftover flushIteration, ∃ files,
      flushStored checksum buf leftover cfg.numPartitionExponent flushIteration table.entries =
        .ok files

section Ranges

variable {part : Bytes → ℕ} {leftover : MemtableEntry Bytes → Bytes} {es : List (MemtableEntry Bytes)}

theorem mem_of_mem_storedRanges {range : ℕ × List (MemtableEntry Bytes)}
    (hr : range ∈ storedRanges part leftover es) {a : MemtableEntry Bytes} (ha : a ∈ range.2) :
    a ∈ es := by
  obtain ⟨r, hr', rfl⟩ := mem_map.mp hr
  obtain ⟨b, hb, rfl⟩ := mem_map.mp ha
  obtain ⟨c, hc, rfl⟩ := mem_map.mp (mem_of_mem_range hr' hb)
  exact hc

theorem storedRanges_nodup
    (h : es.Pairwise fun a b => part (a.key ++ leftover a) ≤ part (b.key ++ leftover b)) :
    ((storedRanges part leftover es).map Prod.fst).Nodup := by
  have hmap : (storedRanges part leftover es).map Prod.fst =
      (partitionRanges (fun k : Bytes × Bytes => part (k.1 ++ k.2))
        (es.map (·.store leftover))).map Prod.fst := by
    rw [storedRanges, map_map]
    rfl
  rw [hmap]
  exact partitionRanges_nodup (pairwise_map.mpr h)

end Ranges

section Prefixes

variable {e : ℕ}

theorem extractPrefix_append (h : 2 ≤ key.length) (leftover : Bytes) :
    extractPrefix (key ++ leftover) = extractPrefix key := by
  obtain ⟨k₀, k₁, key, rfl⟩ : ∃ k₀ k₁ l, key = k₀ :: k₁ :: l := by
    rcases key with - | ⟨k₀, - | ⟨k₁, l⟩⟩
    · simp at h
    · simp at h
    · exact ⟨k₀, k₁, l, rfl⟩
  rfl

theorem extractPrefix_div (he : e ≤ 8) (k₀ : UInt8) (key : Bytes) :
    extractPrefix (k₀ :: key) / 2 ^ (16 - e) = k₀.toNat / 2 ^ (8 - e) := by
  have hsplit : 2 ^ (16 - e) = 2 ^ 8 * 2 ^ (8 - e) := by
    rw [← pow_add]
    congr 1
    omega
  have hbyte := (key.getD 0 0).toNat_lt
  have hprefix : extractPrefix (k₀ :: key) = k₀.toNat * 2 ^ 8 + (key.getD 0 0).toNat := rfl
  rw [hsplit, ← Nat.div_div_eq_div_mul]
  congr 1
  omega

theorem findMatchingPartitionForKey_ne (he : e ≤ 16) (hexp : 8 < e) (k₀ : UInt8) :
    findMatchingPartitionForKey e [k₀, 0] ≠ findMatchingPartitionForKey e [k₀, 255] := by
  intro heq
  have h₀ := findMatchingPartitionForKey_eq he [k₀, 0]
  rw [heq, findMatchingPartitionForKey_eq he [k₀, 255]] at h₀
  have hpos : 0 < 2 ^ (16 - e) := Nat.two_pow_pos _
  have hdiv := Nat.eq_of_mul_eq_mul_right hpos h₀
  have hsmall : 2 ^ (16 - e) ≤ 255 :=
    (Nat.pow_le_pow_right (by decide) (by omega : 16 - e ≤ 7)).trans (by decide)
  have hlow : extractPrefix [k₀, 0] = k₀.toNat * 2 ^ 8 + 0 := rfl
  have hhigh : extractPrefix [k₀, 255] = k₀.toNat * 2 ^ 8 + 255 := rfl
  have hstep : (extractPrefix [k₀, 0] + 2 ^ (16 - e)) / 2 ^ (16 - e) ≤
      extractPrefix [k₀, 255] / 2 ^ (16 - e) := Nat.div_le_div_right (by omega)
  rw [Nat.add_div_right _ hpos] at hstep
  omega

theorem appendedPartition_le (he : e ≤ 16) {a b : Bytes} (ha : 1 ≤ a.length) (hb : 1 ≤ b.length)
    (hlen : 8 < e → 2 ≤ a.length ∧ 2 ≤ b.length) (h : a ≤ b) (more more' : Bytes) :
    findMatchingPartitionForKey e (a ++ more) ≤ findMatchingPartitionForKey e (b ++ more') := by
  refine findMatchingPartitionForKey_le he ?_
  by_cases hexp : 8 < e
  · obtain ⟨ha₂, hb₂⟩ := hlen hexp
    rw [extractPrefix_append ha₂, extractPrefix_append hb₂]
    exact Nat.div_le_div_right (extractPrefix_mono ha₂ hb₂ h)
  · obtain ⟨a₀, as, rfl⟩ := exists_cons_of_length_pos ha
    obtain ⟨b₀, bs, rfl⟩ := exists_cons_of_length_pos hb
    rw [cons_append, cons_append, extractPrefix_div (Nat.not_lt.mp hexp),
      extractPrefix_div (Nat.not_lt.mp hexp)]
    refine Nat.div_le_div_right (UInt8.le_iff_toNat_le.mp ?_)
    rcases ByteCodec.cons_le_cons h with hlt | ⟨rfl, -⟩
    · exact hlt.le
    · exact le_rfl

theorem storedPartition_le (he : e ≤ 16) {a b : MemtableEntry Bytes} (ha : Storable e a)
    (hb : Storable e b) (h : a.key ≤ b.key) (leftover : MemtableEntry Bytes → Bytes) :
    findMatchingPartitionForKey e (a.key ++ leftover a) ≤
      findMatchingPartitionForKey e (b.key ++ leftover b) :=
  appendedPartition_le he ha.1.1.1 hb.1.1.1 (fun hexp => ⟨ha.2 hexp, hb.2 hexp⟩) h _ _

end Prefixes

section Flush

variable {checksum : Bytes → UInt32} {e : ℕ} {leftover : MemtableEntry Bytes → Bytes}

theorem flushStored_eq (checksum : Bytes → UInt32) (buf : ℕ → PageBuffer)
    (leftover : MemtableEntry Bytes → Bytes) (epoch : ℕ) (es : List (MemtableEntry Bytes))
    (he : e ≤ 16) : flushStored checksum buf leftover e epoch es =
      flushRanges checksum buf epoch (storedRanges (findMatchingPartitionForKey e) leftover es) :=
  if_neg (Nat.not_lt.mpr he)

theorem flushStored_ok (he : e ≤ 16) (table : Skiplist Bytes)
    (hes : ∀ a ∈ table.entries, Storable e a) (buf : ℕ → PageBuffer) (epoch : ℕ) :
    ∃ files, flushStored checksum buf leftover e epoch table.entries = .ok files := by
  rw [flushStored_eq checksum buf leftover epoch _ he, flushRanges_ok_iff]
  constructor
  · exact storedRanges_nodup ((sorted_keys table.sorted).imp_of_mem fun ha hb hab =>
      storedPartition_le he (hes _ ha) (hes _ hb) hab leftover)
  · intro range hr a ha
    exact (hes a (mem_of_mem_storedRanges hr (mem_of_mem_writeIndex ha))).1

/-- A key of one byte before two keys that go on from it. -/
def clashTable (k₀ : UInt8) (seq : ℕ) (value : Bytes) : Skiplist Bytes :=
  ⟨[⟨[k₀], seq, value⟩, ⟨[k₀, 0], 0, [1]⟩, ⟨[k₀, 255], 0, [1]⟩], by
    have h₀ : ([k₀] : Bytes) < [k₀, 0] := Lex.cons Lex.nil
    have h₁ : ([k₀, 0] : Bytes) < [k₀, 255] := Lex.cons (Lex.rel (by decide))
    simp only [pairwise_cons, mem_cons, not_mem_nil, or_false, memtableCmp_iff]
    refine ⟨?_, ?_, ?_, .nil⟩
    · rintro b (rfl | rfl)
      · exact .inl h₀
      · exact .inl (h₀.trans h₁)
    · rintro b rfl
      exact .inl h₁
    · rintro b ⟨⟩⟩

theorem storable_pair (e : ℕ) (k₀ k₁ : UInt8) : Storable e ⟨[k₀, k₁], 0, [1]⟩ := by
  refine ⟨⟨⟨Nat.le_add_left 1 1, (by decide : 2 ≤ 256)⟩, ?_⟩, fun _ => le_rfl⟩
  rw [FitsEmptyBlock, blockSpace_singleton]
  exact (by decide : blockSpace [] + (1 + 2 + varintLength 1 + 1 + 2) ≤ pageSizeInBytes)

/-- With small partitions the one-byte key can meet the partition of the third key,
which then is met twice. -/
theorem flushStored_clash (he : e ≤ 16) (hexp : 8 < e) (k₀ : UInt8) (seq : ℕ) (value : Bytes)
    (buf : ℕ → PageBuffer) (epoch : ℕ) :
    ¬ ∃ files, flushStored checksum buf (fun _ => [255]) e epoch
      (clashTable k₀ seq value).entries = .ok files := by
  rw [flushStored_eq checksum buf _ epoch _ he, flushRanges_ok_iff]
  rintro ⟨hnd, -⟩
  set p := findMatchingPartitionForKey e [k₀, 255] with hp
  set q := findMatchingPartitionForKey e [k₀, 0] with hq
  have hne : q ≠ p := findMatchingPartitionForKey_ne he hexp k₀
  have hranges : (storedRanges (findMatchingPartitionForKey e) (fun _ => [255])
      (clashTable k₀ seq value).entries).map Prod.fst = [p, q, p] := by
    have h₁ : findMatchingPartitionForKey e ([k₀] ++ [255]) = p := rfl
    have h₂ : findMatchingPartitionForKey e ([k₀, 0] ++ [255]) = q := rfl
    have h₃ : findMatchingPartitionForKey e ([k₀, 255] ++ [255]) = p := rfl
    simp only [storedRanges, clashTable, map_cons, map_nil, MemtableEntry.store,
      partitionRanges, partitionRangesFrom, h₁, h₂, h₃, ne_eq, not_true_eq_false, if_false, hne,
      Ne.symm hne, not_false_eq_true, if_true]
  rw [hranges] at hnd
  simp at hnd

end Flush

/-! ### Which entries are kept -/

theorem writable_of_push {checksum : Bytes → UInt32} {x : MemtableEntry Bytes} {page : Bytes}
    (h : ((BlockEncoder.reset page).push checksum blockConfig x.key x.value).1 = .ok ()) :
    Writable x := by
  by_contra hbad
  obtain ⟨err, e', hpush⟩ := push_refused checksum (space_reset page x.key x.value) hbad
  rw [hpush] at h
  cases h

theorem push_of_writable (checksum : Bytes → UInt32) {x : MemtableEntry Bytes} (h : Writable x)
    {page : Bytes} (hpage : page.length = pageSizeInBytes) :
    ((BlockEncoder.reset page).push checksum blockConfig x.key x.value).1 = .ok () := by
  have hready : WriterReady checksum { encoder := BlockEncoder.reset page, rest := [] } :=
    writerReady_reset hpage (by simp)
  rcases push_spec checksum (show 1 ≤ 2 by decide) rfl rfl hready.writing x.value h.1 with
    ⟨hfull, -⟩ | ⟨e', -, hpush, -⟩
  · exact absurd h.2 (Nat.not_le.mpr (hfull.trans_eq (blockSpace_concat [] x.key x.value).symm))
  · rw [hpush]

theorem fitsFields_of_writable {seqNr : UInt64} {value : Bytes} {type : ValueType}
    (h : Writable (putEntry seqNr key value type)) :
    (putEntry seqNr key value type).toWalEntry.FitsFields := by
  refine ⟨seqNr.toNat_lt, h.1, ?_⟩
  have hfits : blockSpace [(key, encodeValue type value)] ≤ pageSizeInBytes := h.2
  rw [blockSpace_singleton, pageSizeInBytes] at hfits
  show (encodeValue type value).length < 2 ^ 16
  omega

/-- **Which entries the lower layers keep, exactly.**  When a round of `put_async`
returns `ok`, the record it appended is read back, an empty block takes the entry and a
flush does not fail because of it, if and only if the key has 1 to 256 bytes, the entry
fits an empty block and, with more than 256 partitions, the key has two bytes. -/
theorem put_storable_iff (walChecksum checksum : Bytes → UInt32) (cfg : PutConfig) (env : PutEnv)
    (key value : Bytes) (type : ValueType) (seqNr seqNr' : UInt64) (t t' : WriteBuffer)
    (hput : putRound walChecksum cfg env key value type seqNr t = (.returned (.ok ()), seqNr', t')) :
    t'.contents = t.contents.insert (putEntry seqNr key value type) ∧
      (KeptBelow walChecksum checksum cfg (t'.walFile.drop t.walFile.length)
          (putEntry seqNr key value type) ↔
        Storable cfg.numPartitionExponent (putEntry seqNr key value type)) := by
  obtain ⟨hcontents, hwal⟩ := putRound_ok hput
  refine ⟨hcontents, ?_, ?_⟩
  · intro h
    have hwritable := writable_of_push (h.block _ zeroBuffer.length_first)
    refine ⟨hwritable, fun hexp => ?_⟩
    by_contra hshort
    -- a key of one byte: `clashTable` has it
    obtain ⟨k₀, hk₀⟩ : ∃ k₀, key = [k₀] :=
      length_eq_one_iff.mp (le_antisymm (Nat.lt_succ_iff.mp (Nat.lt_of_not_le hshort)) hwritable.1.1)
    subst hk₀
    refine flushStored_clash cfg.exponent_le hexp k₀ seqNr.toNat (encodeValue type value)
      (fun _ => zeroBuffer) 0
      (h.flush (clashTable k₀ seqNr.toNat (encodeValue type value)) mem_cons_self ?_ _ _ 0)
    intro a ha hne
    rcases mem_cons.mp ha with rfl | ha'
    · exact absurd rfl hne
    · simp only [mem_cons, not_mem_nil, or_false] at ha'
      rcases ha' with rfl | rfl <;> exact storable_pair _ k₀ _
  · intro h
    refine ⟨fun huse path size => ?_, fun page hpage => push_of_writable checksum h.1 hpage, ?_⟩
    · rw [hwal huse, drop_left]
      simpa using readWalEntry_writeEntry walChecksum path size (fitsFields_of_writable h.1) []
    · intro table _ hothers buf leftover flushIteration
      refine flushStored_ok cfg.exponent_le table (fun a ha => ?_) buf flushIteration
      by_cases ha' : a = putEntry seqNr key value type
      · exact ha' ▸ h
      · exact hothers a ha ha'

/-- The default configuration, with the log. -/
def putConfig : PutConfig := ⟨64 * 1024 * 1024, true, 4, by decide⟩

/-- A table nothing was written to. -/
def emptyWriteBuffer : WriteBuffer :=
  { valueArena := Arena.make putConfig.memoryBudgetCap Arena.defaultExtentBytes }

theorem put_storable_read : ∃ t' : WriteBuffer,
    t'.contents = emptyWriteBuffer.contents.insert (putEntry 5 [0, 1] [7] .inPlaceValue) ∧
      KeptBelow (fun _ => 0) (fun _ => 0) putConfig t'.walFile
        (putEntry 5 [0, 1] [7] .inPlaceValue) := by
  obtain ⟨t', hput⟩ : ∃ t', putRound (fun _ => 0) putConfig ⟨true, .ok 19⟩ [0, 1] [7] .inPlaceValue
      5 emptyWriteBuffer = (.returned (.ok ()), 6, t') := ⟨_, rfl⟩
  obtain ⟨hcontents, hkept⟩ := put_storable_iff (fun _ => 0) (fun _ => 0) putConfig ⟨true, .ok 19⟩
    [0, 1] [7] .inPlaceValue 5 6 emptyWriteBuffer t' hput
  exact ⟨t', hcontents, hkept.mpr ⟨by decide, by decide⟩⟩

/-- An empty key is taken; its record is not read back, no block takes it, and the
flush of its table fails. -/
theorem put_takes_empty_key : ∃ t' : WriteBuffer,
    putRound (fun _ => 0) putConfig ⟨true, .ok 17⟩ [] [7] .inPlaceValue 5 emptyWriteBuffer =
        (.returned (.ok ()), 6, t') ∧
      (∀ path size, ∃ err, readWalEntry (fun _ => 0) path size t'.walFile = .error err) ∧
      (∀ page, ((BlockEncoder.reset page).push (fun _ => 0) blockConfig [] [1, 7]).1 =
        .error { msg := "invalid key size" }) ∧
      ∀ leftover, ¬ ∃ files, flushStored (fun _ => 0) (fun _ => zeroBuffer) leftover 4 1
        t'.contents.entries = .ok files := by
  refine ⟨_, rfl, ?_, ?_, ?_⟩
  · intro path size
    exact ⟨_, rfl⟩
  · intro page
    rfl
  · intro leftover
    set x : MemtableEntry Bytes := ⟨[], 5, [1, 7]⟩
    have hranges : storedRanges (findMatchingPartitionForKey 4) leftover [x] =
        [(findMatchingPartitionForKey 4 (leftover x), [x])] := by
      simp [storedRanges, partitionRanges, partitionRangesFrom, MemtableEntry.store,
        MemtableEntry.unstore, x]
    show ¬ ∃ files, flushStored _ _ leftover 4 1 [x] = .ok files
    rw [flushStored_eq _ _ _ _ _ (by decide), hranges, flushRanges_ok_iff]
    rintro ⟨-, hes⟩
    have hkey : 1 ≤ x.key.length := (hes _ mem_cons_self x mem_cons_self).1.1
    exact absurd hkey (by decide)

end HedgeDB
