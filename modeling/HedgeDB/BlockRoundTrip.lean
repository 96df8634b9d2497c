/-
HedgeDB/BlockRoundTrip.lean

Reading a block back.

The bytes of the entries (`body`) are a function of the accepted entries alone.
`pushAll_spec` says that pushing writes this body at the start of the page and
leaves room for the trailer, `commit_spec` that committing keeps it and writes
the footer.  On the reading side an iterator in front of an entry reads it back
(`readNext_entry`), unless the entry is a delta entry whose 256 bytes do not
share a single byte with the key before: then the length 256 is stored as 0
(`readNext_lost`).  `entries_eq_iff` joins the two.
-/
import HedgeDB.Block

namespace HedgeDB

open ByteCodec List Option

variable {cfg : BlockConfig}

/-! ### The bytes of the entries -/

/-- The bytes of the entry number `i` of a block, behind the key `prev`. -/
def entryBytes (cfg : BlockConfig) (i : ℕ) (prev key value : Bytes) : Bytes :=
  if i &&& (cfg.restartGroupSize - 1) ≠ 0 then
    deltaEntry (sharedPrefixLength prev key) key value
  else restartEntry key value

/-- The bytes of entries from number `i` on, behind the key `prev`. -/
def body (cfg : BlockConfig) : ℕ → Bytes → List (Bytes × Bytes) → Bytes
  | _, _, [] => []
  | i, prev, (key, value) :: kvs => entryBytes cfg i prev key value ++ body cfg (i + 1) key kvs

/-- The room the encoder takes for such an entry: its bytes and, for a full key,
its offset in the trailer. -/
def entrySpace (cfg : BlockConfig) (i : ℕ) (prev key value : Bytes) : ℕ :=
  if i &&& (cfg.restartGroupSize - 1) ≠ 0 then
    2 + (key.length - sharedPrefixLength prev key) + varintLength value.length + value.length
  else 1 + key.length + varintLength value.length + value.length + 2

theorem sharedPrefixLength_le (prev key : Bytes) :
    sharedPrefixLength prev key ≤ prev.length ∧ sharedPrefixLength prev key ≤ key.length := by
  induction prev generalizing key with
  | nil => simp [sharedPrefixLength]
  | cons a prev ih =>
    rcases key with - | ⟨b, key⟩
    · simp [sharedPrefixLength]
    · rw [sharedPrefixLength]
      split
      · obtain ⟨h₁, h₂⟩ := ih key
        exact ⟨Nat.succ_le_succ h₁, Nat.succ_le_succ h₂⟩
      · exact ⟨Nat.zero_le _, Nat.zero_le _⟩

theorem take_sharedPrefixLength (prev key : Bytes) :
    prev.take (sharedPrefixLength prev key) = key.take (sharedPrefixLength prev key) := by
  induction prev generalizing key with
  | nil => simp [sharedPrefixLength]
  | cons a prev ih =>
    rcases key with - | ⟨b, key⟩
    · simp [sharedPrefixLength]
    · rw [sharedPrefixLength]
      split
      · next h => rw [take_succ_cons, take_succ_cons, ih key, h]
      · rfl

/-- The key before the entry that comes next. -/
def keyBefore (prev : Bytes) (kvs : List (Bytes × Bytes)) : Bytes :=
  (kvs.getLast?.map Prod.fst).getD prev

theorem keyBefore_cons (prev : Bytes) (kv : Bytes × Bytes) (kvs : List (Bytes × Bytes)) :
    keyBefore prev (kv :: kvs) = keyBefore kv.1 kvs := by
  rcases kvs.eq_nil_or_concat with rfl | ⟨l, b, rfl⟩ <;> simp [keyBefore, getLast?_cons]

theorem body_append (i : ℕ) (prev : Bytes) (kvs kvs' : List (Bytes × Bytes)) :
    body cfg i prev (kvs ++ kvs') =
      body cfg i prev kvs ++ body cfg (i + kvs.length) (keyBefore prev kvs) kvs' := by
  induction kvs generalizing i prev with
  | nil => simp [body, keyBefore]
  | cons kv kvs ih =>
    rw [cons_append, body, ih, keyBefore_cons, body, append_assoc, length_cons,
      Nat.add_right_comm i 1, Nat.add_assoc i]

/-! ### Writing -/

/-- An encoder that has written `bytes` and nothing else. -/
structure Writing (cfg : BlockConfig) (bytes : Bytes) (e : BlockEncoder) : Prop where
  length : e.page.length = cfg.blockSizeInBytes
  head : e.head = bytes.length
  written : e.page.take bytes.length = bytes
  bytesWritten : e.bytesWritten = sizeofBlockFooter + 2 + bytes.length + 2 * e.offsets.length
  room : e.bytesWritten ≤ cfg.blockSizeInBytes
  entries : 3 * e.kvsCount ≤ bytes.length
  restarts : 2 * e.offsets.length ≤ e.kvsCount + e.kvsCount % 2

/-- A page with `bytes` at its start and room for the trailer behind them. -/
structure Encoded (cfg : BlockConfig) (bytes : Bytes) (e : BlockEncoder) : Prop where
  length : e.page.length = cfg.blockSizeInBytes
  written : e.page.take bytes.length = bytes
  room : sizeofBlockFooter + 2 + bytes.length + 2 * e.offsets.length ≤ cfg.blockSizeInBytes

variable {e : BlockEncoder} {bytes : Bytes}

theorem Writing.encoded (h : Writing cfg bytes e) : Encoded cfg bytes e :=
  ⟨h.length, h.written, h.bytesWritten ▸ h.room⟩

theorem length_flatMap_le (l : List ℕ) : (l.flatMap (le 2)).length = l.length * 2 := by
  induction l with
  | nil => rfl
  | cons a l ih => rw [flatMap_cons, length_append, ih, length_le, length_cons]; ring

variable {value : Bytes}

theorem length_restartEntry (key : Bytes) (hv : value.length < 2 ^ 64) :
    (restartEntry key value).length =
      1 + key.length + varintLength value.length + value.length := by
  simp only [restartEntry, length_append, length_cons, length_unsafeVarint hv]
  omega

theorem length_deltaEntry (shared : ℕ) (key : Bytes) (hv : value.length < 2 ^ 64) :
    (deltaEntry shared key value).length =
      2 + (key.length - shared) + varintLength value.length + value.length := by
  simp only [deltaEntry, length_append, length_cons, length_drop, length_unsafeVarint hv]
  omega

theorem Writing.write {more : Bytes} {e' : BlockEncoder} (h : Writing cfg bytes e)
    (hpage : e'.page = e.page) (hhead : e'.head = e.head) (hbytes : e'.bytesWritten =
      sizeofBlockFooter + 2 + (bytes ++ more).length + 2 * e'.offsets.length)
    (hroom : e'.bytesWritten ≤ cfg.blockSizeInBytes)
    (hentries : 3 * e'.kvsCount ≤ (bytes ++ more).length)
    (hrestarts : 2 * e'.offsets.length ≤ e'.kvsCount + e'.kvsCount % 2) :
    Writing cfg (bytes ++ more) (e'.write more) := by
  have hfit : e.head + more.length ≤ e.page.length := by
    rw [h.head, h.length]
    rw [length_append] at hbytes
    omega
  refine ⟨?_, ?_, ?_, hbytes, hroom, hentries, hrestarts⟩
  · simp only [BlockEncoder.write, hpage, hhead, length_writeAt hfit, h.length]
  · simp [BlockEncoder.write, hhead, h.head]
  · simp only [BlockEncoder.write, hpage, hhead, writeAt]
    rw [h.head, h.written, take_left' rfl]

def trailerStart (cfg : BlockConfig) (e : BlockEncoder) : ℕ :=
  cfg.blockSizeInBytes - e.offsets.length * 2 - 2 - sizeofBlockFooter

/-- The page of a committed block up to its checksum: the offsets, their number and the rest
of the footer behind what stands before the trailer. -/
def committedFront (cfg : BlockConfig) (e : BlockEncoder) : Bytes :=
  e.page.take (trailerStart cfg e) ++ e.offsets.flatMap (le 2) ++ le 2 e.offsets.length ++
    BlockEncoder.footer e.kvsCount

variable (checksum : Bytes → UInt32)

section Commit

variable {bytes : Bytes} {e : BlockEncoder}

theorem BlockEncoder.commit_frame (cfg : BlockConfig) (e : BlockEncoder) :
    (e.commit checksum cfg).kvsCount = e.kvsCount ∧ (e.commit checksum cfg).lastKey = e.lastKey ∧
      (e.commit checksum cfg).offsets = e.offsets ∧
      (e.commit checksum cfg).bytesWritten = e.bytesWritten := by
  simp only [BlockEncoder.commit, BlockEncoder.write, and_self]

theorem length_footer (kvsCount : ℕ) : (BlockEncoder.footer kvsCount).length = 4 := by
  simp [BlockEncoder.footer]

theorem Encoded.trailerStart_add (h : Encoded cfg bytes e) :
    trailerStart cfg e + e.offsets.length * 2 + 2 + sizeofBlockFooter = cfg.blockSizeInBytes := by
  have hroom := h.room
  rw [trailerStart]
  omega

theorem Encoded.le_trailerStart (h : Encoded cfg bytes e) : bytes.length ≤ trailerStart cfg e := by
  have hroom := h.room
  have hstart := h.trailerStart_add
  omega

theorem Encoded.trailerStart_le (h : Encoded cfg bytes e) : trailerStart cfg e ≤ e.page.length := by
  have hstart := h.trailerStart_add
  rw [h.length]
  omega

theorem Encoded.length_take (h : Encoded cfg bytes e) :
    (e.page.take (trailerStart cfg e)).length = trailerStart cfg e := by
  rw [List.length_take, Nat.min_eq_left h.trailerStart_le]

theorem Encoded.length_committedFront (h : Encoded cfg bytes e) :
    (committedFront cfg e).length = cfg.blockSizeInBytes - 4 := by
  have hstart := h.trailerStart_add
  rw [committedFront, length_append, length_append, length_append, h.length_take,
    length_flatMap_le, length_le, length_footer]
  rw [sizeofBlockFooter] at hstart
  omega

/-- **What committing writes**: four writes, one behind the other up to the end of the page. -/
theorem commit_page (h : Encoded cfg bytes e) :
    (e.commit checksum cfg).page =
        committedFront cfg e ++ le 4 (checksum (committedFront cfg e)).toNat ∧
      (e.commit checksum cfg).head = cfg.blockSizeInBytes := by
  have hstart := h.trailerStart_add
  have hle := h.trailerStart_le
  have hfront := h.length_committedFront
  set offsets := e.offsets.flatMap (le 2) with hoffsets
  set count := le 2 e.offsets.length with hcount
  set foot := BlockEncoder.footer e.kvsCount with hfoot
  have hlen : offsets.length = e.offsets.length * 2 ∧ count.length = 2 ∧ foot.length = 4 :=
    ⟨length_flatMap_le e.offsets, length_le 2 _, length_footer _⟩
  have hpage₂ : writeAt (writeAt e.page (trailerStart cfg e) offsets)
      (trailerStart cfg e + offsets.length) count =
        writeAt e.page (trailerStart cfg e) (offsets ++ count) := writeAt_writeAt hle
  have hpage₃ : writeAt (writeAt e.page (trailerStart cfg e) (offsets ++ count))
      (trailerStart cfg e + offsets.length + count.length) foot =
        writeAt e.page (trailerStart cfg e) (offsets ++ count ++ foot) := by
    rw [Nat.add_assoc, ← length_append, writeAt_writeAt hle]
  have hpage₄ : ∀ sum, writeAt (writeAt e.page (trailerStart cfg e) (offsets ++ count ++ foot))
      (trailerStart cfg e + offsets.length + count.length + foot.length) sum =
        writeAt e.page (trailerStart cfg e) (offsets ++ count ++ foot ++ sum) := by
    intro sum
    rw [Nat.add_assoc, Nat.add_assoc, ← Nat.add_assoc offsets.length, ← length_append,
      ← length_append, writeAt_writeAt hle]
  -- what the checksum is computed from
  have hbefore : (writeAt e.page (trailerStart cfg e) (offsets ++ count ++ foot)).take
      (cfg.blockSizeInBytes - 4) = committedFront cfg e := by
    rw [writeAt, ← append_assoc, ← append_assoc]
    exact take_left' hfront
  have hstart' : cfg.blockSizeInBytes - e.offsets.length * 2 - 2 - sizeofBlockFooter =
      trailerStart cfg e := rfl
  constructor
  · simp only [BlockEncoder.commit, BlockEncoder.write, hstart', ← hoffsets, ← hcount, ← hfoot,
      hpage₂, hpage₃, hpage₄, hbefore]
    rw [writeAt_end]
    · simp only [committedFront, ← hoffsets, ← hcount, ← hfoot, append_assoc]
    · simp only [length_append, length_le, h.length]
      rw [sizeofBlockFooter] at hstart
      omega
  · simp only [BlockEncoder.commit, BlockEncoder.write, hstart', ← hoffsets, ← hcount, ← hfoot, length_le]
    rw [sizeofBlockFooter] at hstart
    omega

/-- Committing leaves the entries alone and writes the footer behind them: the
number of entries, and a checksum of everything before it. -/
theorem commit_spec (h : Encoded cfg bytes e) :
    Encoded cfg bytes (e.commit checksum cfg) ∧
      (e.commit checksum cfg).kvsCount = e.kvsCount ∧
      (e.commit checksum cfg).page.drop (cfg.blockSizeInBytes - sizeofBlockFooter) =
        BlockEncoder.footer e.kvsCount ++
          le 4 (checksum ((e.commit checksum cfg).page.take (cfg.blockSizeInBytes - 4))).toNat := by
  have hstart := h.trailerStart_add
  have hfront := h.length_committedFront
  have hpage := (commit_page checksum h).1
  obtain ⟨hcount, -, hoffsets, -⟩ := BlockEncoder.commit_frame checksum cfg e
  refine ⟨⟨?_, ?_, by rw [hoffsets]; exact h.room⟩, hcount, ?_⟩
  · rw [hpage, length_append, hfront, length_le]
    rw [sizeofBlockFooter] at hstart
    omega
  · -- nothing before the trailer changes
    have hle := h.le_trailerStart
    rw [hpage, committedFront, append_assoc, append_assoc, append_assoc,
      take_append_of_le_length (by rw [h.length_take]; exact hle), take_take,
      Nat.min_eq_left hle, h.written]
  · rw [hpage, take_left' hfront]
    have hdrop : (committedFront cfg e).drop (cfg.blockSizeInBytes - sizeofBlockFooter) =
        BlockEncoder.footer e.kvsCount := by
      rw [committedFront]
      apply drop_left'
      rw [length_append, length_append, h.length_take, length_flatMap_le, length_le]
      omega
    rw [drop_append_of_le_length (by rw [hfront, sizeofBlockFooter]; omega), hdrop]

end Commit

theorem Writing.offsets_lt (h : Writing cfg bytes e)
    (hsize : cfg.blockSizeInBytes = pageSizeInBytes) : e.offsets.length < inlineVectorCapacity := by
  have h₁ := h.bytesWritten
  have h₂ := h.room
  have h₃ := h.entries
  have h₄ := h.restarts
  rw [hsize, pageSizeInBytes] at h₂
  rw [sizeofBlockFooter] at h₁
  rw [inlineVectorCapacity]
  omega

variable {key : Bytes} {s : ℕ}

/-- Pushing an entry of a valid key size writes its bytes, if there is room for it,
and commits the block otherwise. -/
theorem push_spec (hs : 1 ≤ s) (hcfg : cfg.restartGroupSize = 2 ^ s)
    (hsize : cfg.blockSizeInBytes = pageSizeInBytes) (h : Writing cfg bytes e) (value : Bytes)
    (hkey : 1 ≤ key.length ∧ key.length ≤ maxKeyLen) :
    (pageSizeInBytes < e.bytesWritten + entrySpace cfg e.kvsCount e.lastKey key value ∧
        e.push checksum cfg key value = (.error BlockEncoder.bufferFull, e.commit checksum cfg)) ∨
      ∃ e', e.bytesWritten + entrySpace cfg e.kvsCount e.lastKey key value ≤ pageSizeInBytes ∧
        e.push checksum cfg key value = (.ok (), e') ∧
        Writing cfg (bytes ++ entryBytes cfg e.kvsCount e.lastKey key value) e' ∧
        e'.kvsCount = e.kvsCount + 1 ∧ e'.lastKey = key ∧
        e'.bytesWritten = e.bytesWritten + entrySpace cfg e.kvsCount e.lastKey key value := by
  have hvalid : ¬ (key.length > maxKeyLen ∨ key.length = 0) := by omega
  have hpage : cfg.blockSizeInBytes < 2 ^ 64 := hsize ▸ (by decide)
  have hbytes := h.bytesWritten
  have hentries := h.entries
  have hrestarts := h.restarts
  rw [BlockEncoder.push, if_neg hvalid, entryBytes, entrySpace, ← hsize]
  by_cases hmask : e.kvsCount &&& (cfg.restartGroupSize - 1) ≠ 0
  · rw [if_pos hmask, if_pos hmask, if_pos hmask, BlockEncoder.pushAsDeltaKey]
    dsimp only
    have hshared := (sharedPrefixLength_le e.lastKey key).2
    split
    · exact .inl ⟨by omega, rfl⟩
    · next hroom =>
      have hlen := length_deltaEntry (sharedPrefixLength e.lastKey key) key
        (show value.length < 2 ^ 64 by omega)
      have hvarint := varintLength_pos value.length
      refine .inr ⟨_, by omega, rfl, h.write rfl rfl ?_ (Nat.not_lt.mp hroom) ?_ ?_, rfl, rfl, ?_⟩ <;>
        (try rw [length_append, hlen]) <;> dsimp only [BlockEncoder.write] <;> omega
  · -- a restart comes at an even number of entries
    have heven : e.kvsCount % 2 = 0 := by
      rw [not_not, hcfg, Nat.and_two_pow_sub_one_eq_mod] at hmask
      exact Nat.mod_eq_zero_of_dvd ((dvd_pow_self 2 (by omega)).trans (Nat.dvd_of_mod_eq_zero hmask))
    rw [if_neg hmask, if_neg hmask, if_neg hmask, BlockEncoder.pushAsRestartKey]
    dsimp only
    rw [if_neg (not_le.mpr (h.offsets_lt hsize))]
    split
    · exact .inl ⟨by omega, rfl⟩
    · next hroom =>
      have hlen := length_restartEntry key (show value.length < 2 ^ 64 by omega)
      have hvarint := varintLength_pos value.length
      refine .inr ⟨_, by omega, rfl, h.write rfl rfl ?_ ?_ ?_ ?_, rfl, rfl, ?_⟩ <;>
        (try rw [length_append, hlen]) <;> (try rw [length_append]) <;>
        dsimp only [length_singleton, BlockEncoder.write] <;> omega

variable {kvs : List (Bytes × Bytes)}

theorem pushAll_spec (hs : 1 ≤ s) (hcfg : cfg.restartGroupSize = 2 ^ s)
    (hsize : cfg.blockSizeInBytes = pageSizeInBytes) (h : Writing cfg bytes e)
    (hkeys : ∀ kv ∈ kvs, 1 ≤ kv.1.length ∧ kv.1.length ≤ maxKeyLen) :
    Encoded cfg (bytes ++ body cfg e.kvsCount e.lastKey (e.pushAll checksum cfg kvs).1)
        (e.pushAll checksum cfg kvs).2 ∧
      (e.pushAll checksum cfg kvs).2.kvsCount =
        e.kvsCount + (e.pushAll checksum cfg kvs).1.length := by
  induction kvs generalizing bytes e with
  | nil => simpa [BlockEncoder.pushAll, body] using h.encoded
  | cons kv kvs ih =>
    obtain ⟨key, value⟩ := kv
    rcases push_spec checksum hs hcfg hsize h value (hkeys _ mem_cons_self) with
      ⟨-, hpush⟩ | ⟨e', -, hpush, hwriting, hcount, hlast, -⟩
    · have henc := commit_spec checksum h.encoded
      simpa [BlockEncoder.pushAll, hpush, body, henc.2.1] using henc.1
    · obtain ⟨henc, hcount'⟩ := ih hwriting fun kv h => hkeys kv (mem_cons_of_mem _ h)
      rw [hcount, hlast] at henc
      rw [hcount] at hcount'
      simp only [BlockEncoder.pushAll, hpush, body, length_cons, ← append_assoc]
      exact ⟨henc, by omega⟩

/-! ### Reading -/

variable {i : ℕ}

theorem restart_mask_iff (hi : i < 2 ^ 32) :
    i &&& ((2 ^ s % 2 ^ 32 + 2 ^ 32 - 1) % 2 ^ 32) = 0 ↔ i &&& (2 ^ s - 1) = 0 := by
  rcases Nat.lt_or_ge s 32 with hs | hs
  · have hlt : 2 ^ s < 2 ^ 32 := Nat.pow_lt_pow_right (by decide) hs
    have hpos : 0 < 2 ^ s := Nat.two_pow_pos s
    have hmask : (2 ^ s % 2 ^ 32 + 2 ^ 32 - 1) % 2 ^ 32 = 2 ^ s - 1 := by
      rw [Nat.mod_eq_of_lt hlt]
      omega
    rw [hmask]
  · -- a group longer than the counter: only the first entry is a restart
    have hle : 2 ^ 32 ≤ 2 ^ s := Nat.pow_le_pow_right (by decide) hs
    have hzero : 2 ^ s % 2 ^ 32 = 0 := Nat.mod_eq_zero_of_dvd (Nat.pow_dvd_pow 2 hs)
    have hmask : (2 ^ s % 2 ^ 32 + 2 ^ 32 - 1) % 2 ^ 32 = 2 ^ 32 - 1 := by
      rw [hzero]
      rfl
    rw [hmask, Nat.and_two_pow_sub_one_eq_mod, Nat.and_two_pow_sub_one_eq_mod,
      Nat.mod_eq_of_lt hi, Nat.mod_eq_of_lt (hi.trans_le hle)]

variable {rest : Bytes} {it : BlockIterator}

theorem readValue_eq (hhead : it.head = unsafeVarint value.length ++ value ++ rest)
    (hvalue : value.length < 2 ^ 14) :
    it.readValue = some { it with head := rest, value := value } := by
  have hv : value.length < 2 ^ 64 := hvalue.trans (by decide)
  have hlen : (unsafeVarint value.length).length ≤ 2 := by
    rw [length_unsafeVarint hv]
    exact varintLength_le.mpr hvalue
  have htake : it.head.take maxVarintLength32 = unsafeVarint value.length ++
      (value ++ rest).take (maxVarintLength32 - (unsafeVarint value.length).length) := by
    rw [hhead, append_assoc, take_append]
    rw [take_of_length_le (by rw [maxVarintLength32]; omega)]
  have hdecode := tryDecodeVarint_unsafeVarint hv
    ((value ++ rest).take (maxVarintLength32 - (unsafeVarint value.length).length)) (by
      rw [← htake, length_take]
      simp only [maxVarintLength32, maxVarintLength64]
      omega)
  have hdrop : it.head.drop (unsafeVarint value.length).length = value ++ rest := by
    rw [hhead, append_assoc, drop_left' rfl]
  simp only [BlockIterator.readValue, htake, hdecode, hdrop, BlockIterator.readSpan,
    length_append, Nat.le_add_right, if_true, bind_eq_bind, bind_some,
    take_left' rfl, drop_left' rfl]

/-- A delta entry whose length does not survive its byte: a key of 256 bytes that
shares none with the key before. -/
def CutLength (cfg : BlockConfig) (i : ℕ) (prev key : Bytes) : Prop :=
  i &&& (cfg.restartGroupSize - 1) ≠ 0 ∧ key.length = maxKeyLen ∧
    sharedPrefixLength prev key = 0

instance (cfg : BlockConfig) (i : ℕ) (prev key : Bytes) : Decidable (CutLength cfg i prev key) :=
  inferInstanceAs (Decidable (_ ∧ _ ∧ _))

/-- The same for keys in any order: a key of 256 bytes that shares none of them with the key
before, or all of them.  Either length of the entry is then stored as 0. -/
def LostLength (cfg : BlockConfig) (i : ℕ) (prev key : Bytes) : Prop :=
  i &&& (cfg.restartGroupSize - 1) ≠ 0 ∧ key.length = maxKeyLen ∧
    (sharedPrefixLength prev key = 0 ∨ sharedPrefixLength prev key = maxKeyLen)

instance (cfg : BlockConfig) (i : ℕ) (prev key : Bytes) : Decidable (LostLength cfg i prev key) :=
  inferInstanceAs (Decidable (_ ∧ _ ∧ _))

theorem readRestartKey_eq (hhead : it.head = restartEntry key value ++ rest)
    (hkey : 1 ≤ key.length ∧ key.length ≤ maxKeyLen) (hvalue : value.length < 2 ^ 14) :
    it.readRestartKey = some { it with head := rest, key := key, value := value } := by
  have hsize := decodeKeySize_encodeKeySize hkey
  have hhead' : it.head = encodeKeySize key.length ::
      (key ++ (unsafeVarint value.length ++ value ++ rest)) := by
    rw [hhead, restartEntry]
    simp
  simp only [BlockIterator.readRestartKey, BlockIterator.readByte, hhead', bind_eq_bind,
    bind_some, hsize, BlockIterator.readSpan, length_append, Nat.le_add_right, if_true,
    take_left' rfl, drop_left' rfl]
  exact readValue_eq rfl hvalue

theorem readDeltaKey_eq
    (hhead : it.head = deltaEntry (sharedPrefixLength it.key key) key value ++ rest)
    (hkey : key.length ≤ maxKeyLen) (hlost : ¬ (key.length = maxKeyLen ∧
      (sharedPrefixLength it.key key = 0 ∨ sharedPrefixLength it.key key = maxKeyLen)))
    (hvalue : value.length < 2 ^ 14) :
    it.readDeltaKey = some { it with head := rest, key := key, value := value } := by
  obtain ⟨hprev, hle⟩ := sharedPrefixLength_le it.key key
  have htake := take_sharedPrefixLength it.key key
  revert hhead hlost hprev hle htake
  generalize sharedPrefixLength it.key key = shared
  intro hhead hlost hprev hle htake
  rw [maxKeyLen] at hkey hlost
  have hs : (UInt8.ofNat shared).toNat = shared := by
    have hbyte : (UInt8.ofNat shared).toNat = shared % 256 := UInt8.toNat_ofNat'
    omega
  have hd : (UInt8.ofNat (key.length - shared)).toNat = (key.drop shared).length := by
    have hbyte : (UInt8.ofNat (key.length - shared)).toNat = (key.length - shared) % 256 :=
      UInt8.toNat_ofNat'
    rw [hbyte, length_drop]
    omega
  have hhead' : it.head = UInt8.ofNat shared :: UInt8.ofNat (key.length - shared) ::
      (key.drop shared ++ (unsafeVarint value.length ++ value ++ rest)) := by
    rw [hhead, deltaEntry]
    simp
  have hresize : resizeKey shared it.key ++ key.drop shared = key := by
    rw [resizeKey, Nat.sub_eq_zero_of_le hprev, htake]
    simp
  simp only [BlockIterator.readDeltaKey, BlockIterator.readByte, hhead', bind_eq_bind,
    bind_some, hs, hd, BlockIterator.readSpan, length_append, Nat.le_add_right, if_true,
    take_left' rfl, drop_left' rfl, hresize]
  exact readValue_eq rfl hvalue

variable {it' : BlockIterator}

theorem readValue_frame (h : it.readValue = some it') :
    it'.key = it.key ∧ it'.kvIdx = it.kvIdx ∧ it'.kvsInBlockCount = it.kvsInBlockCount := by
  rw [BlockIterator.readValue] at h
  split at h
  · cases h
  · simp only [BlockIterator.readSpan] at h
    split at h
    · obtain rfl := some.inj h
      exact ⟨rfl, rfl, rfl⟩
    · cases h

theorem readDeltaKey_lost (it : BlockIterator) {shared : ℕ}
    (hhead : it.head = deltaEntry shared key value ++ rest) (hkey : key.length = maxKeyLen)
    (hshared : shared = 0 ∨ shared = maxKeyLen) (h : it.readDeltaKey = some it') :
    it'.key = [] ∧ it'.kvIdx = it.kvIdx ∧ it'.kvsInBlockCount = it.kvsInBlockCount := by
  have hd : (UInt8.ofNat (key.length - shared)).toNat = 0 := by
    rw [hkey]
    rcases hshared with rfl | rfl <;> rfl
  have hz : (UInt8.ofNat shared).toNat = 0 := by
    rcases hshared with rfl | rfl <;> rfl
  have hhead' : it.head = UInt8.ofNat shared :: UInt8.ofNat (key.length - shared) ::
      (key.drop shared ++ (unsafeVarint value.length ++ value ++ rest)) := by
    rw [hhead, deltaEntry]
    simp
  simp only [BlockIterator.readDeltaKey, BlockIterator.readByte, hhead', bind_eq_bind,
    bind_some, hd, hz, BlockIterator.readSpan, Nat.zero_le, if_true, take_zero,
    drop_zero, append_nil] at h
  obtain ⟨hread, hidx, hcount⟩ := readValue_frame h
  exact ⟨hread.trans (by simp [resizeKey]), hidx, hcount⟩

/-- The lengths of all entries survive. -/
def Readable (cfg : BlockConfig) : ℕ → Bytes → List (Bytes × Bytes) → Prop
  | _, _, [] => True
  | i, prev, (key, _) :: kvs => ¬ CutLength cfg i prev key ∧ Readable cfg (i + 1) key kvs

instance (cfg : BlockConfig) : ∀ i prev kvs, Decidable (Readable cfg i prev kvs)
  | _, _, [] => isTrue trivial
  | i, prev, (key, _) :: kvs =>
      have : Decidable (Readable cfg (i + 1) key kvs) := instDecidableReadable cfg (i + 1) key kvs
      inferInstanceAs (Decidable (¬ CutLength cfg i prev key ∧ Readable cfg (i + 1) key kvs))

/-- The lengths of all entries survive, for keys in any order. -/
def ReadsBack (cfg : BlockConfig) : ℕ → Bytes → List (Bytes × Bytes) → Prop
  | _, _, [] => True
  | i, prev, (key, _) :: kvs => ¬ LostLength cfg i prev key ∧ ReadsBack cfg (i + 1) key kvs

instance (cfg : BlockConfig) : ∀ i prev kvs, Decidable (ReadsBack cfg i prev kvs)
  | _, _, [] => isTrue trivial
  | i, prev, (key, _) :: kvs =>
      have : Decidable (ReadsBack cfg (i + 1) key kvs) := instDecidableReadsBack cfg (i + 1) key kvs
      inferInstanceAs (Decidable (¬ LostLength cfg i prev key ∧ ReadsBack cfg (i + 1) key kvs))

theorem lostLength_iff {prev : Bytes} (hne : prev ≠ key) (hprev : prev.length ≤ maxKeyLen) :
    LostLength cfg i prev key ↔ CutLength cfg i prev key := by
  refine and_congr_right fun _ => and_congr_right fun hkey => or_iff_left fun hall => hne ?_
  have htake := take_sharedPrefixLength prev key
  rwa [hall, take_of_length_le hprev, take_of_length_le hkey.le] at htake

theorem readsBack_iff {i : ℕ} {prev value : Bytes} {kvs : List (Bytes × Bytes)}
    (hprev : prev.length ≤ maxKeyLen) (hkeys : ∀ kv ∈ kvs, kv.1.length ≤ maxKeyLen)
    (hne : ((prev, value) :: kvs).Pairwise fun a b => a.1 ≠ b.1) :
    ReadsBack cfg i prev kvs ↔ Readable cfg i prev kvs := by
  induction kvs generalizing i prev value with
  | nil => exact Iff.rfl
  | cons kv kvs ih =>
    obtain ⟨hfirst, hne'⟩ := pairwise_cons.mp hne
    obtain ⟨hkey, hkeys'⟩ := forall_mem_cons.mp hkeys
    rw [ReadsBack, Readable, lostLength_iff (hfirst kv mem_cons_self) hprev, ih hkey hkeys' hne']

variable {s : ℕ} {it : BlockIterator}

theorem readNext_end (h : it.kvsInBlockCount ≤ it.kvIdx) :
    it.readNext = some { it with kvIdx := it.kvIdx + 1 } :=
  if_pos h

theorem readNext_entry (hcfg : cfg.restartGroupSize = 2 ^ s)
    (hgroup : it.restartGroupSize = 2 ^ s % 2 ^ 32) (hidx : it.kvIdx < it.kvsInBlockCount)
    (hcount : it.kvsInBlockCount < 2 ^ 16)
    (hhead : it.head = entryBytes cfg it.kvIdx it.key key value ++ rest)
    (hkey : 1 ≤ key.length ∧ key.length ≤ maxKeyLen) (hvalue : value.length < 2 ^ 14)
    (hlost : ¬ LostLength cfg it.kvIdx it.key key) :
    it.readNext =
      some { it with head := rest, kvIdx := it.kvIdx + 1, key := key, value := value } := by
  have hlt : it.kvIdx < 2 ^ 32 := hidx.trans (hcount.trans (by decide))
  have hmask := restart_mask_iff (s := s) hlt
  rw [← hgroup] at hmask
  rw [BlockIterator.readNext]
  dsimp only
  rw [if_neg (not_le.mpr hidx)]
  rw [entryBytes, hcfg] at hhead
  rw [LostLength, hcfg] at hlost
  by_cases hzero : it.kvIdx &&& (2 ^ s - 1) = 0
  · rw [if_neg (not_not.mpr hzero)] at hhead
    rw [if_pos (hmask.mpr hzero)]
    exact readRestartKey_eq hhead hkey hvalue
  · rw [if_pos hzero] at hhead
    rw [if_neg (mt hmask.mp hzero)]
    exact readDeltaKey_eq hhead hkey.2 (fun hc => hlost ⟨hzero, hc⟩) hvalue

/-- In front of an entry whose lengths are lost it reads the empty key, or past the page. -/
theorem readNext_lost (hcfg : cfg.restartGroupSize = 2 ^ s)
    (hgroup : it.restartGroupSize = 2 ^ s % 2 ^ 32) (hidx : it.kvIdx < it.kvsInBlockCount)
    (hcount : it.kvsInBlockCount < 2 ^ 16)
    (hhead : it.head = entryBytes cfg it.kvIdx it.key key value ++ rest)
    (hlost : LostLength cfg it.kvIdx it.key key) (h : it.readNext = some it') :
    it'.key = [] ∧ it'.kvIdx = it.kvIdx + 1 ∧ it'.kvsInBlockCount = it.kvsInBlockCount := by
  obtain ⟨hdelta, hlen, hshared⟩ := hlost
  have hlt : it.kvIdx < 2 ^ 32 := hidx.trans (hcount.trans (by decide))
  rw [entryBytes, if_pos hdelta] at hhead
  rw [hcfg, ne_eq, ← restart_mask_iff hlt, ← hgroup] at hdelta
  rw [BlockIterator.readNext] at h
  dsimp only at h
  rw [if_neg (not_le.mpr hidx), if_neg hdelta] at h
  exact readDeltaKey_lost { it with kvIdx := it.kvIdx + 1 } hhead hlen hshared h

/-- Iterating to the end gives back the entries if no length is lost; otherwise an empty key
is among what is read, or the page is left. -/
theorem toEnd_spec (it : BlockIterator) (hcfg : cfg.restartGroupSize = 2 ^ s) {fuel : ℕ}
    (hfuel : kvs.length + 2 ≤ fuel) (hgroup : it.restartGroupSize = 2 ^ s % 2 ^ 32)
    (hidx : it.kvIdx + kvs.length = it.kvsInBlockCount) (hcount : it.kvsInBlockCount < 2 ^ 16)
    (hhead : it.head = body cfg it.kvIdx it.key kvs ++ rest)
    (hkeys : ∀ kv ∈ kvs, 1 ≤ kv.1.length ∧ kv.1.length ≤ maxKeyLen)
    (hvalues : ∀ kv ∈ kvs, kv.2.length < 2 ^ 14) :
    (ReadsBack cfg it.kvIdx it.key kvs → it.toEnd fuel = some ((it.key, it.value) :: kvs)) ∧
      (¬ ReadsBack cfg it.kvIdx it.key kvs →
        ∀ l, it.toEnd fuel = some l → ∃ value, ([], value) ∈ l) := by
  induction kvs generalizing it fuel with
  | nil =>
    obtain ⟨fuel, rfl⟩ : ∃ n, fuel = n + 2 := ⟨fuel - 2, by simp at hfuel; omega⟩
    have hlast : it.kvIdx = it.kvsInBlockCount := hidx
    refine ⟨fun _ => ?_, fun h => absurd trivial h⟩
    simp [BlockIterator.toEnd, BlockIterator.atEnd, readNext_end hlast.ge, hlast]
  | cons kv kvs ih =>
    obtain ⟨key, value⟩ := kv
    obtain ⟨fuel, rfl⟩ : ∃ n, fuel = n + 1 := ⟨fuel - 1, by omega⟩
    rw [length_cons] at hidx hfuel
    rw [body, append_assoc] at hhead
    have hlt : it.kvIdx < it.kvsInBlockCount := by omega
    have hend : it.atEnd = false := by simp [BlockIterator.atEnd]; omega
    simp only [BlockIterator.toEnd, hend, Bool.false_eq_true, if_false, ReadsBack]
    by_cases hlost : LostLength cfg it.kvIdx it.key key
    · -- the key read here is the empty one
      refine ⟨fun h => absurd hlost h.1, fun _ l hread => ?_⟩
      obtain ⟨it', hnext, hread'⟩ := bind_eq_some_iff.mp hread
      obtain ⟨l', hl, hcons⟩ := bind_eq_some_iff.mp hread'
      obtain ⟨hkey, hidx', hcount'⟩ := readNext_lost hcfg hgroup hlt hcount hhead hlost hnext
      obtain rfl := some.inj hcons
      obtain ⟨fuel, rfl⟩ : ∃ n, fuel = n + 1 := ⟨fuel - 1, by omega⟩
      have hend' : it'.atEnd = false := by simp [BlockIterator.atEnd, hidx', hcount']; omega
      simp only [BlockIterator.toEnd, hend', Bool.false_eq_true, if_false] at hl
      obtain ⟨it'', -, hl'⟩ := bind_eq_some_iff.mp hl
      obtain ⟨l'', -, hl''⟩ := bind_eq_some_iff.mp hl'
      obtain rfl := some.inj hl''
      exact ⟨it'.value, mem_cons_of_mem _ (hkey ▸ mem_cons_self)⟩
    · rw [readNext_entry hcfg hgroup hlt hcount hhead (hkeys _ mem_cons_self)
        (hvalues _ mem_cons_self) hlost]
      obtain ⟨hread, hlost'⟩ := @ih
        { it with head := body cfg (it.kvIdx + 1) key kvs ++ rest, kvIdx := it.kvIdx + 1
                  key := key, value := value } fuel (by omega) hgroup (by dsimp only; omega)
        hcount rfl (fun kv h => hkeys kv (mem_cons_of_mem _ h))
        (fun kv h => hvalues kv (mem_cons_of_mem _ h))
      simp only [bind_eq_bind, bind_some, hlost, not_false_eq_true, true_and]
      refine ⟨fun h => ?_, fun h l hl => ?_⟩
      · rw [hread h]
        rfl
      · obtain ⟨l', hl', hcons⟩ := bind_eq_some_iff.mp hl
        obtain rfl := some.inj hcons
        obtain ⟨value', hmem⟩ := hlost' h l' hl'
        exact ⟨value', mem_cons_of_mem _ hmem⟩

/-! ### The round trip -/

theorem length_entryBytes_pos (cfg : BlockConfig) (i : ℕ) (prev key value : Bytes) :
    value.length < (entryBytes cfg i prev key value).length := by
  rw [entryBytes]
  split <;> simp [deltaEntry, restartEntry] <;> omega

theorem length_le_body (cfg : BlockConfig) (i : ℕ) (prev : Bytes) (kvs : List (Bytes × Bytes)) :
    kvs.length ≤ (body cfg i prev kvs).length ∧
      ∀ kv ∈ kvs, kv.2.length ≤ (body cfg i prev kvs).length := by
  induction kvs generalizing i prev with
  | nil => simp
  | cons kv kvs ih =>
    obtain ⟨key, value⟩ := kv
    obtain ⟨hlen, hvalues⟩ := ih (i + 1) key
    have hpos := length_entryBytes_pos cfg i prev key value
    rw [body, length_append, length_cons]
    refine ⟨by omega, fun kv h => ?_⟩
    rcases mem_cons.mp h with rfl | h'
    · dsimp only
      omega
    · exact (hvalues kv h').trans (Nat.le_add_left _ _)

theorem reset_commit (h : Encoded cfg bytes e) :
    BlockDecoder.reset cfg (e.commit checksum cfg).page =
      { page := (e.commit checksum cfg).page
        kvCount := e.kvsCount % 2 ^ 16
        checksum :=
          (checksum ((e.commit checksum cfg).page.take (cfg.blockSizeInBytes - 4))).toNat } := by
  obtain ⟨-, -, hfooter⟩ := commit_spec checksum h
  simp only [BlockDecoder.reset, hfooter, BlockEncoder.footer]
  congr 1
  · rw [append_assoc, take_left' (length_le 2 _), ofLe_le]
    rfl
  · rw [drop_left' (by simp), take_of_length_le (by simp), ofLe_le]
    exact Nat.mod_eq_of_lt (UInt32.toNat_lt _)

theorem sanityCheck_commit (h : Encoded cfg bytes e) :
    (BlockDecoder.reset cfg (e.commit checksum cfg).page).sanityCheck checksum cfg = .ok () := by
  rw [reset_commit checksum h]
  simp [BlockDecoder.sanityCheck]

theorem readsBack_block_iff (hkeys : ∀ kv ∈ kvs, 1 ≤ kv.1.length ∧ kv.1.length ≤ maxKeyLen)
    (hne : kvs.Pairwise fun a b => a.1 ≠ b.1) : ReadsBack cfg 0 [] kvs ↔ Readable cfg 0 [] kvs := by
  refine @readsBack_iff _ _ _ [] kvs (Nat.zero_le _) (fun kv hkv => (hkeys kv hkv).2)
    (pairwise_cons.mpr ⟨fun kv hkv hnil => ?_, hne⟩)
  have hkey := (hkeys kv hkv).1
  rw [← hnil] at hkey
  exact Nat.not_succ_le_zero 0 hkey

section Entries

variable (hcfg : cfg.restartGroupSize = 2 ^ s) (hsize : cfg.blockSizeInBytes = pageSizeInBytes)
  (h : Encoded cfg (body cfg 0 [] kvs) e) (hcount : e.kvsCount = kvs.length)
  (hkeys : ∀ kv ∈ kvs, 1 ≤ kv.1.length ∧ kv.1.length ≤ maxKeyLen)

include hcfg hsize h hcount hkeys

/-- The entries of a committed page are those that were written if none of their lengths was
lost; otherwise an empty key is among what is read, or the page is left. -/
theorem entries_readsBack :
    let d := BlockDecoder.reset cfg (e.commit checksum cfg).page
    (ReadsBack cfg 0 [] kvs → d.entries cfg = some kvs) ∧
      (¬ ReadsBack cfg 0 [] kvs → ∀ l, d.entries cfg = some l → ∃ value, ([], value) ∈ l) := by
  intro d
  obtain ⟨hlen, hvalues⟩ := length_le_body cfg 0 [] kvs
  have hroom : (body cfg 0 [] kvs).length ≤ pageSizeInBytes := by
    have := h.room
    omega
  rw [pageSizeInBytes] at hroom
  have hcount' : kvs.length < 2 ^ 16 := by omega
  have hvalues' : ∀ kv ∈ kvs, kv.2.length < 2 ^ 14 := fun kv hkv => by
    have := hvalues kv hkv
    omega
  have hpage : (e.commit checksum cfg).page = body cfg 0 [] kvs ++
      (e.commit checksum cfg).page.drop (body cfg 0 [] kvs).length := by
    conv_lhs => rw [← take_append_drop (body cfg 0 [] kvs).length
      (e.commit checksum cfg).page]
    rw [(commit_spec checksum h).1.written]
  have hd : d = _ := reset_commit checksum h
  rw [hcount, Nat.mod_eq_of_lt hcount'] at hd
  rw [hd, BlockDecoder.entries, BlockDecoder.begin, hcfg]
  dsimp only
  clear hd d
  -- how the page was written does not matter any more
  generalize (e.commit checksum cfg).page = page at hpage
  rcases kvs with - | ⟨⟨key, value⟩, kvs⟩
  · refine ⟨fun _ => ?_, fun h => absurd trivial h⟩
    rw [readNext_end (Nat.le_refl 0)]
    rfl
  · -- the first entry has a full key
    have hfirst : ¬ LostLength cfg 0 [] key := fun hc => hc.1 (Nat.zero_and _)
    rw [body, append_assoc] at hpage
    rw [readNext_entry hcfg rfl (Nat.succ_pos _) hcount' hpage (hkeys _ mem_cons_self)
      (hvalues' _ mem_cons_self) hfirst]
    simp only [bind_eq_bind, bind_some, ReadsBack, hfirst, not_false_eq_true, true_and]
    exact toEnd_spec ⟨_, 0 + 1, _, _, key, value⟩ hcfg le_rfl rfl (Nat.add_comm _ _) hcount' rfl
      (fun kv h => hkeys kv (mem_cons_of_mem _ h))
      (fun kv h => hvalues' kv (mem_cons_of_mem _ h))

theorem entries_spec (hne : kvs.Pairwise fun a b => a.1 ≠ b.1) :
    let d := BlockDecoder.reset cfg (e.commit checksum cfg).page
    (Readable cfg 0 [] kvs → d.entries cfg = some kvs) ∧
      (¬ Readable cfg 0 [] kvs → ∀ l, d.entries cfg = some l → ∃ value, ([], value) ∈ l) := by
  rw [← readsBack_block_iff hkeys hne]
  exact entries_readsBack checksum hcfg hsize h hcount hkeys

theorem entries_eq_iff (hne : kvs.Pairwise fun a b => a.1 ≠ b.1) :
    (BlockDecoder.reset cfg (e.commit checksum cfg).page).entries cfg = some kvs ↔
      Readable cfg 0 [] kvs := by
  obtain ⟨hread, hlost⟩ := entries_spec checksum hcfg hsize h hcount hkeys hne
  refine ⟨fun heq => ?_, hread⟩
  by_contra hcut
  obtain ⟨value, hmem⟩ := hlost hcut kvs heq
  exact absurd (hkeys _ hmem).1 (by simp)

end Entries

theorem pushAll_sublist (cfg : BlockConfig) (e : BlockEncoder) (kvs : List (Bytes × Bytes)) :
    (e.pushAll checksum cfg kvs).1.Sublist kvs := by
  induction kvs generalizing e with
  | nil => exact Sublist.slnil
  | cons kv kvs ih =>
    obtain ⟨key, value⟩ := kv
    rw [BlockEncoder.pushAll]
    split
    · exact nil_sublist _
    · exact (ih _).cons_cons _

theorem readable_iff {prev : Bytes} :
    Readable cfg i prev kvs ↔
      (∀ a, kvs.head? = some a → ¬ CutLength cfg i prev a.1) ∧
        ∀ j a b, kvs[j]? = some a → kvs[j + 1]? = some b → ¬ CutLength cfg (i + j + 1) a.1 b.1 := by
  induction kvs generalizing i prev with
  | nil => simp [Readable]
  | cons kv kvs ih =>
    rw [Readable, ih]
    constructor
    · rintro ⟨hfirst, hsecond, hrest⟩
      refine ⟨fun a ha => some.inj ha ▸ hfirst, fun j a b ha hb => ?_⟩
      rcases j with - | j
      · obtain rfl := some.inj ha
        exact hsecond b (by simpa [head?_eq_getElem?] using hb)
      · have := hrest j a b ha hb
        rwa [Nat.add_right_comm i 1 j] at this
    · rintro ⟨hfirst, hrest⟩
      refine ⟨hfirst _ rfl, fun a ha => ?_, fun j a b ha hb => ?_⟩
      · exact hrest 0 kv a rfl (by simpa [head?_eq_getElem?] using ha)
      · have := hrest (j + 1) a b ha hb
        rwa [Nat.add_right_comm i 1 j]

/-- A block of one page that is encoded and decoded with restart groups of `2 ^ s`
entries. -/
def pageConfig (s : ℕ) : BlockConfig := { restartGroupSize := 2 ^ s }

/-- What is accepted is read back if no delta entry among it has its length cut,
and only then. -/
theorem accepted_entries_eq_iff (hs : 1 ≤ s) {page : Bytes}
    (hpage : page.length = pageSizeInBytes) (hsorted : kvs.Pairwise fun a b => a.1 < b.1)
    (hkeys : ∀ kv ∈ kvs, 1 ≤ kv.1.length ∧ kv.1.length ≤ maxKeyLen) :
    let r := (BlockEncoder.reset page).pushAll checksum (pageConfig s) kvs
    let d := BlockDecoder.reset (pageConfig s) (r.2.commit checksum (pageConfig s)).page
    (d.entries (pageConfig s) = some r.1 ↔ Readable (pageConfig s) 0 [] r.1) ∧
      d.sanityCheck checksum (pageConfig s) = .ok () := by
  intro r d
  have hwriting : Writing (pageConfig s) [] (BlockEncoder.reset page) :=
    ⟨hpage, rfl, rfl, rfl, (by decide : (10 : ℕ) ≤ 4096), Nat.zero_le _, Nat.zero_le _⟩
  obtain ⟨henc, hcount⟩ := pushAll_spec checksum hs rfl rfl hwriting hkeys
  have hsub := pushAll_sublist checksum (pageConfig s) (BlockEncoder.reset page) kvs
  have hiff := entries_eq_iff checksum rfl rfl henc (hcount.trans (Nat.zero_add _))
    (fun kv hkv => hkeys kv (hsub.subset hkv)) ((hsorted.sublist hsub).imp ne_of_lt)
  exact ⟨hiff, sanityCheck_commit checksum henc⟩

/-- **The block codec, exactly.**  Entries pushed until the block is full and then
committed are read back with their keys and values, and the page passes its check,
if and only if no accepted delta entry has a key of 256 bytes that shares none with
the key before it. -/
theorem block_round_trip_iff (checksum : Bytes → UInt32) (s : ℕ) (hs : 1 ≤ s) (page : Bytes)
    (hpage : page.length = pageSizeInBytes) (kvs : List (Bytes × Bytes))
    (hsorted : kvs.Pairwise fun a b => a.1 < b.1)
    (hkeys : ∀ kv ∈ kvs, 1 ≤ kv.1.length ∧ kv.1.length ≤ 256) :
    let r := (BlockEncoder.reset page).pushAll checksum (pageConfig s) kvs
    let d := BlockDecoder.reset (pageConfig s) (r.2.commit checksum (pageConfig s)).page
    (d.entries (pageConfig s) = some r.1 ∧ d.sanityCheck checksum (pageConfig s) = .ok ()) ↔
      ∀ i a b, r.1[i]? = some a → r.1[i + 1]? = some b →
        ¬ CutLength (pageConfig s) (i + 1) a.1 b.1 := by
  intro r d
  obtain ⟨hiff, hsanity⟩ := accepted_entries_eq_iff checksum hs hpage hsorted hkeys
  have hstart : ∀ a : Bytes × Bytes, r.1.head? = some a → ¬ CutLength (pageConfig s) 0 [] a.1 :=
    fun a _ hc => hc.1 (Nat.zero_and _)
  rw [and_iff_left hsanity]
  refine hiff.trans (readable_iff.trans ?_)
  rw [and_iff_right hstart]
  simp only [Nat.zero_add]
  exact Iff.rfl

/-- Entries at the edge of the condition: the second key shares a byte with the
first, the third none, and neither has 256 bytes. -/
def roundTripEntries : List (Bytes × Bytes) := [([1], [7]), ([1, 2], []), ([2], [9, 9])]

theorem block_round_trip_three :
    let r := (BlockEncoder.reset (replicate pageSizeInBytes 0)).pushAll (fun _ => 0)
      (pageConfig 2) roundTripEntries
    let d := BlockDecoder.reset (pageConfig 2) (r.2.commit (fun _ => 0) (pageConfig 2)).page
    r.1 = roundTripEntries ∧ d.entries (pageConfig 2) = some r.1 ∧
      d.sanityCheck (fun _ => 0) (pageConfig 2) = .ok () := by
  refine ⟨by decide +kernel, (block_round_trip_iff (fun _ => 0) 2 (by decide)
    (replicate pageSizeInBytes 0) length_replicate roundTripEntries (by decide)
    (by decide)).mpr ?_⟩
  intro i a b _ hb hcut
  have hmem : b ∈ roundTripEntries :=
    (pushAll_sublist _ _ _ _).subset (mem_of_getElem? hb)
  have hshort : ∀ kv ∈ roundTripEntries, kv.1.length ≠ maxKeyLen := by decide
  exact hshort b hmem hcut.2.1

/-- A delta key of 256 bytes that shares none with the key before it is accepted and
not read back: its length is stored as 0. -/
theorem block_round_trip_cut :
    let kvs : List (Bytes × Bytes) := [([0], []), (replicate 256 1, [])]
    let r := (BlockEncoder.reset (replicate pageSizeInBytes 0)).pushAll (fun _ => 0)
      (pageConfig 2) kvs
    let d := BlockDecoder.reset (pageConfig 2) (r.2.commit (fun _ => 0) (pageConfig 2)).page
    (kvs.Pairwise fun a b => a.1 < b.1) ∧
      (∀ kv ∈ kvs, 1 ≤ kv.1.length ∧ kv.1.length ≤ 256) ∧ r.1 = kvs ∧
      d.entries (pageConfig 2) ≠ some kvs := by
  intro kvs r d
  have hsorted : kvs.Pairwise fun a b => a.1 < b.1 := by decide +kernel
  have hkeys : ∀ kv ∈ kvs, 1 ≤ kv.1.length ∧ kv.1.length ≤ 256 := by decide +kernel
  have haccepted : r.1 = kvs := by decide +kernel
  obtain ⟨hiff, -⟩ := accepted_entries_eq_iff (fun _ => 0) (show 1 ≤ 2 by decide)
    (length_replicate (n := pageSizeInBytes) (a := 0)) hsorted hkeys
  have hcut : ¬ Readable (pageConfig 2) 0 [] kvs := fun h => h.2.1 (by decide +kernel)
  refine ⟨hsorted, hkeys, haccepted, fun h => hcut ?_⟩
  rw [← haccepted] at h ⊢
  exact hiff.mp h

end HedgeDB
