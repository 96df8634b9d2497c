/-
HedgeDB/BlockFind.lean

Searching a block (`block_decoder::find`, `src/db/block.cc`).

The trailer of a page has the offsets of the full keys, one for each restart group.
`find` looks for the last group whose full key is not behind the key it is asked
for, and reads that group alone.  `BlockPage` says what the encoder leaves behind,
the offsets included, and `find_spec` that the search agrees with a scan of all
entries.

The iterator keeps the size of a restart group in 32 bits.  A group of `2 ^ 32`
entries or more has size 0 there, and is over before its first entry is looked at
(`find_lost`).
-/
import Mathlib.Data.List.GetD
import HedgeDB.BinarySearch
import HedgeDB.BlockRoundTrip
import HedgeDB.KeyedList

namespace HedgeDB

open List hiding lookup_cons lookup_append lookup lookup_eq_some_iff
open ByteCodec KeyedList BinarySearch Option

variable {cfg : BlockConfig} {s : ℕ}

/-! ### The search -/

namespace BlockIterator

/-- Comparison with the sentinel of the restart group that starts at the entry number
`start`. -/
def atGroupEnd (start : ℕ) (it : BlockIterator) : Bool :=
  it.kvIdx > (start + it.restartGroupSize) % 2 ^ 32 || it.kvIdx > it.kvsInBlockCount

/-- The loop of `find`. -/
def findInGroup (key : Bytes) (start : ℕ) : ℕ → BlockIterator → Option Bytes
  | 0, _ => some []
  | fuel + 1, it =>
      if it.atGroupEnd start then some []
      else if it.key = key then some it.value
      else do
        let it' ← it.readNext
        findInGroup key start fuel it'

end BlockIterator

namespace BlockDecoder

/-- The full key at an offset. -/
def restartKeyAt (d : BlockDecoder) (offset : ℕ) : Option Bytes :=
  match d.page.drop offset with
  | [] => none
  | b :: rest =>
      if decodeKeySize b ≤ rest.length then some (rest.take (decodeKeySize b)) else none

/-- `find`.  The offsets are copied to an `inline_vector`. -/
def find (cfg : BlockConfig) (d : BlockDecoder) (key : Bytes) : Option Bytes :=
  let restartCountPtr := cfg.blockSizeInBytes - sizeofBlockFooter - 2
  let restartCount := ofLe ((d.page.drop restartCountPtr).take 2)
  if restartCount > inlineVectorCapacity ∨ restartCount * 2 > restartCountPtr then none
  else do
    let offsets := unpackAll 2 restartCount (d.page.drop (restartCountPtr - restartCount * 2))
    let offsetIt ← partitionPoint
      (fun offset => (d.restartKeyAt offset).map fun restartKey => !decide (key < restartKey)) offsets
    if offsetIt = 0 then some []
    else
      let skippedKvs := (offsetIt - 1) * cfg.restartGroupSize % 2 ^ 32
      let it ← BlockIterator.readNext
        { head := d.page.drop (offsets.getD (offsetIt - 1) 0), kvIdx := skippedKvs
          kvsInBlockCount := d.kvCount, restartGroupSize := cfg.restartGroupSize % 2 ^ 32 }
      it.findInGroup key skippedKvs (d.kvCount + 1)

end BlockDecoder

/-! ### The offsets -/

/-- How many restart groups entries take. -/
def groupCount (cfg : BlockConfig) (kvs : List (Bytes × Bytes)) : ℕ :=
  (kvs.length + cfg.restartGroupSize - 1) / cfg.restartGroupSize

/-- Where the restart groups of a block start. -/
def groupOffsets (cfg : BlockConfig) (kvs : List (Bytes × Bytes)) : List ℕ :=
  (range (groupCount cfg kvs)).map fun j =>
    (body cfg 0 [] (kvs.take (j * cfg.restartGroupSize))).length

theorem readable_append (i : ℕ) (prev : Bytes) (kvs kvs' : List (Bytes × Bytes)) :
    Readable cfg i prev (kvs ++ kvs') ↔ Readable cfg i prev kvs ∧
      Readable cfg (i + kvs.length) (keyBefore prev kvs) kvs' := by
  induction kvs generalizing i prev with
  | nil => simp [Readable, keyBefore]
  | cons kv kvs ih =>
    rw [cons_append, Readable, ih, keyBefore_cons, Readable, and_assoc, length_cons,
      Nat.add_right_comm i 1, Nat.add_assoc i]

theorem groupOffsets_concat (hcfg : cfg.restartGroupSize = 2 ^ s) (kvs : List (Bytes × Bytes))
    (kv : Bytes × Bytes) :
    groupOffsets cfg (kvs ++ [kv]) = groupOffsets cfg kvs ++
      if kvs.length &&& (cfg.restartGroupSize - 1) ≠ 0 then [] else [(body cfg 0 [] kvs).length] := by
  have hpos : 0 < 2 ^ s := Nat.two_pow_pos s
  have hdiv := Nat.div_add_mod kvs.length (2 ^ s)
  have hmod := Nat.mod_lt kvs.length hpos
  -- the groups before keep their offsets
  have hkeep : ∀ n, n * 2 ^ s < kvs.length + 2 ^ s →
      (range n).map (fun j => (body cfg 0 [] ((kvs ++ [kv]).take (j * 2 ^ s))).length) =
        (range n).map fun j => (body cfg 0 [] (kvs.take (j * 2 ^ s))).length := by
    intro n hn
    refine map_congr_left fun j hj => ?_
    have hle : (j + 1) * 2 ^ s ≤ n * 2 ^ s := Nat.mul_le_mul_right _ (mem_range.mp hj)
    rw [Nat.add_mul, Nat.one_mul] at hle
    rw [take_append_of_le_length (by omega)]
  simp only [groupOffsets, groupCount, hcfg, length_append, length_singleton,
    Nat.and_two_pow_sub_one_eq_mod]
  by_cases hzero : kvs.length % 2 ^ s = 0
  · have hcount : (kvs.length + 2 ^ s - 1) / 2 ^ s = kvs.length / 2 ^ s := by
      refine Nat.div_eq_of_lt_le ?_ ?_
      · rw [Nat.mul_comm]
        omega
      · rw [Nat.succ_mul, Nat.mul_comm]
        omega
    have hcount' : (kvs.length + 1 + 2 ^ s - 1) / 2 ^ s = kvs.length / 2 ^ s + 1 := by
      rw [show kvs.length + 1 + 2 ^ s - 1 = kvs.length + 2 ^ s by omega, Nat.add_div_right _ hpos]
    have hlen : kvs.length / 2 ^ s * 2 ^ s = kvs.length := by
      rw [Nat.mul_comm]
      omega
    rw [if_neg (not_not.mpr hzero), hcount, hcount', range_succ, map_append,
      hkeep _ (by omega), map_singleton, hlen, take_left' rfl]
  · have hcount : (kvs.length + 2 ^ s - 1) / 2 ^ s = kvs.length / 2 ^ s + 1 := by
      refine Nat.div_eq_of_lt_le ?_ ?_
      · rw [Nat.add_mul, Nat.mul_comm]
        omega
      · rw [Nat.succ_mul, Nat.add_mul, Nat.mul_comm]
        omega
    have hcount' : (kvs.length + 1 + 2 ^ s - 1) / 2 ^ s = kvs.length / 2 ^ s + 1 := by
      rw [show kvs.length + 1 + 2 ^ s - 1 = kvs.length + 2 ^ s by omega, Nat.add_div_right _ hpos]
    rw [if_pos hzero, hcount, hcount', append_nil, hkeep]
    rw [Nat.add_mul, Nat.mul_comm]
    omega

/-! ### What the encoder leaves -/

/-- A page as the encoder leaves it for these entries: the entries, the offsets of the
restart groups and the footer. -/
def BlockPage (checksum : Bytes → UInt32) (cfg : BlockConfig) (page : Bytes)
    (kvs : List (Bytes × Bytes)) : Prop :=
  ∃ e, Encoded cfg (body cfg 0 [] kvs) e ∧ e.kvsCount = kvs.length ∧
    e.offsets = groupOffsets cfg kvs ∧ e.offsets.length ≤ inlineVectorCapacity ∧
    page = (e.commit checksum cfg).page

/-- An encoder on whose page these entries are. -/
structure BlockWrote (cfg : BlockConfig) (kvs : List (Bytes × Bytes)) (e : BlockEncoder) : Prop where
  writing : Writing cfg (body cfg 0 [] kvs) e
  count : e.kvsCount = kvs.length
  last : e.lastKey = keyBefore [] kvs
  offsets : e.offsets = groupOffsets cfg kvs
  capacity : e.offsets.length ≤ inlineVectorCapacity

variable {page : Bytes}

theorem wrote_reset (hsize : cfg.blockSizeInBytes = pageSizeInBytes)
    (hcfg : cfg.restartGroupSize = 2 ^ s) (hpage : page.length = pageSizeInBytes) :
    BlockWrote cfg [] (BlockEncoder.reset page) := by
  have hnone : groupOffsets cfg [] = [] := by
    have hlt : 2 ^ s - 1 < 2 ^ s := Nat.sub_lt (Nat.two_pow_pos s) Nat.one_pos
    simp [groupOffsets, groupCount, hcfg, Nat.div_eq_of_lt hlt]
  refine ⟨⟨hpage.trans hsize.symm, rfl, rfl, rfl, ?_, Nat.zero_le _, Nat.zero_le _⟩, rfl, rfl,
    hnone.symm, Nat.zero_le _⟩
  rw [hsize]
  exact (by decide : (10 : ℕ) ≤ 4096)

variable {e e' : BlockEncoder} {key value : Bytes}

variable (checksum : Bytes → UInt32)

theorem push_offsets (h : e.push checksum cfg key value = (.ok (), e')) :
    e'.offsets = e.offsets ++
        (if e.kvsCount &&& (cfg.restartGroupSize - 1) ≠ 0 then [] else [e.head]) ∧
      (e.offsets.length ≤ inlineVectorCapacity → e'.offsets.length ≤ inlineVectorCapacity) := by
  rw [BlockEncoder.push] at h
  split at h
  · cases h
  · split at h
    · next hdelta =>
      rw [BlockEncoder.pushAsDeltaKey] at h
      dsimp only at h
      split at h
      · cases h
      · cases h
        rw [if_pos hdelta]
        exact ⟨(append_nil _).symm, id⟩
    · next hrestart =>
      rw [BlockEncoder.pushAsRestartKey] at h
      dsimp only at h
      split at h
      · cases h
      · split at h
        · cases h
        · next hcap =>
          cases h
          rw [if_neg hrestart]
          refine ⟨rfl, fun _ => ?_⟩
          simp only [BlockEncoder.write, length_append, length_singleton]
          omega

theorem push_key (h : e.push checksum cfg key value = (.ok (), e')) :
    1 ≤ key.length ∧ key.length ≤ maxKeyLen := by
  rw [BlockEncoder.push] at h
  split at h
  · cases h
  · omega

variable {bytes : Bytes}

/-- A block that refuses an entry is committed, or left alone if the size of the key is
not valid. -/
theorem push_error (hs : 1 ≤ s) (hcfg : cfg.restartGroupSize = 2 ^ s)
    (hsize : cfg.blockSizeInBytes = pageSizeInBytes) (hw : Writing cfg bytes e) {err : Error}
    (h : e.push checksum cfg key value = (.error err, e')) :
    e' = e ∨ e' = e.commit checksum cfg := by
  by_cases hkey : key.length > maxKeyLen ∨ key.length = 0
  · rw [BlockEncoder.push, if_pos hkey] at h
    cases h
    exact .inl rfl
  · rcases push_spec checksum hs hcfg hsize hw value (by omega : 1 ≤ key.length ∧ _) with
      ⟨-, hpush⟩ | ⟨e'', -, hpush, -⟩
    · rw [hpush] at h
      cases h
      exact .inr rfl
    · rw [hpush] at h
      cases h

variable {kvs : List (Bytes × Bytes)}

theorem BlockWrote.push (hs : 1 ≤ s) (hcfg : cfg.restartGroupSize = 2 ^ s)
    (hsize : cfg.blockSizeInBytes = pageSizeInBytes) (hw : BlockWrote cfg kvs e)
    (h : e.push checksum cfg key value = (.ok (), e')) :
    BlockWrote cfg (kvs ++ [(key, value)]) e' := by
  obtain ⟨hoffsets, hcap⟩ := push_offsets checksum h
  rcases push_spec checksum hs hcfg hsize hw.writing value (push_key checksum h) with
    ⟨-, hpush⟩ | ⟨e'', -, hpush, hwriting, hcount, hlast, -⟩
  · rw [hpush] at h
    cases h
  · obtain rfl : e'' = e' := by
      rw [hpush] at h
      exact congrArg Prod.snd h
    have hbody : body cfg 0 [] (kvs ++ [(key, value)]) =
        body cfg 0 [] kvs ++ entryBytes cfg e.kvsCount e.lastKey key value := by
      rw [body_append, hw.count, hw.last, Nat.zero_add]
      simp [body]
    refine ⟨hbody ▸ hwriting, ?_, ?_, ?_, hcap hw.capacity⟩
    · rw [hcount, hw.count, length_append]
      rfl
    · rw [hlast]
      simp [keyBefore]
    · rw [hoffsets, groupOffsets_concat hcfg, hw.offsets, hw.count, hw.writing.head]

/-- Pushing entries until one is refused and committing leaves the page of those that were
accepted. -/
theorem BlockWrote.pushAll (hs : 1 ≤ s) (hcfg : cfg.restartGroupSize = 2 ^ s)
    (hsize : cfg.blockSizeInBytes = pageSizeInBytes) {done : List (Bytes × Bytes)}
    (hw : BlockWrote cfg done e) (kvs : List (Bytes × Bytes)) :
    BlockPage checksum cfg ((e.pushAll checksum cfg kvs).2.commit checksum cfg).page
        (done ++ (e.pushAll checksum cfg kvs).1) ∧
      ∀ kv ∈ (e.pushAll checksum cfg kvs).1, 1 ≤ kv.1.length ∧ kv.1.length ≤ maxKeyLen := by
  have hdone : BlockPage checksum cfg (e.commit checksum cfg).page done :=
    ⟨e, hw.writing.encoded, hw.count, hw.offsets, hw.capacity, rfl⟩
  induction kvs generalizing done e with
  | nil => simpa [BlockEncoder.pushAll] using hdone
  | cons kv kvs ih =>
    obtain ⟨key, value⟩ := kv
    rw [BlockEncoder.pushAll]
    split
    · next err e' hpush =>
      refine ⟨?_, fun _ h => absurd h not_mem_nil⟩
      rw [append_nil]
      rcases push_error checksum hs hcfg hsize hw.writing hpush with rfl | rfl
      · exact hdone
      · -- committed twice
        have henc := (commit_spec checksum hw.writing.encoded).1
        obtain ⟨hcount, -, hoffsets, -⟩ := BlockEncoder.commit_frame checksum cfg e
        refine ⟨_, henc, hcount.trans hw.count, hoffsets.trans hw.offsets, ?_, rfl⟩
        rw [hoffsets]
        exact hw.capacity
    · next u e' hpush =>
      have hw' := hw.push checksum hs hcfg hsize hpush
      obtain ⟨hpage, hkeys⟩ := ih hw'
        ⟨e', hw'.writing.encoded, hw'.count, hw'.offsets, hw'.capacity, rfl⟩
      rw [append_assoc] at hpage
      refine ⟨hpage, fun kv hkv => ?_⟩
      rcases mem_cons.mp hkv with rfl | hkv'
      · exact push_key checksum hpush
      · exact hkeys kv hkv'

/-! ### Reading the trailer -/

theorem commit_trailer (h : Encoded cfg bytes e) :
    let ptr := cfg.blockSizeInBytes - sizeofBlockFooter - 2
    e.offsets.length * 2 ≤ ptr ∧
      (((e.commit checksum cfg).page.drop ptr).take 2 = le 2 e.offsets.length) ∧
      ((e.commit checksum cfg).page.drop (ptr - e.offsets.length * 2)).take (e.offsets.length * 2) =
        e.offsets.flatMap (le 2) := by
  intro ptr
  have hstart := h.trailerStart_add
  have hpage : (e.commit checksum cfg).page = e.page.take (trailerStart cfg e) ++
      (e.offsets.flatMap (le 2) ++ (le 2 e.offsets.length ++ (BlockEncoder.footer e.kvsCount ++
        le 4 (checksum (committedFront cfg e)).toNat))) := by
    rw [(commit_page checksum h).1, committedFront]
    simp only [append_assoc]
  have hptr : ptr = trailerStart cfg e + e.offsets.length * 2 := by omega
  refine ⟨by omega, ?_, ?_⟩
  · rw [hpage, hptr, ← drop_drop, drop_left' h.length_take,
      drop_left' (length_flatMap_le e.offsets), take_left' (length_le 2 _)]
  · rw [hpage, hptr, Nat.add_sub_cancel, drop_left' h.length_take,
      take_left' (length_flatMap_le e.offsets)]

/-! ### Finding the group -/

/-- What `find` is for: the value under a key, or nothing. -/
def valueOf (kvs : List (Bytes × Bytes)) (key : Bytes) : Bytes :=
  ((lookup Prod.fst kvs key).map Prod.snd).getD []

theorem valueOf_cons (kv : Bytes × Bytes) (kvs : List (Bytes × Bytes)) (key : Bytes) :
    valueOf (kv :: kvs) key = if kv.1 = key then kv.2 else valueOf kvs key := by
  rw [valueOf, lookup_cons]
  split <;> rfl

theorem valueOf_of_not_mem (h : ∀ kv ∈ kvs, kv.1 ≠ key) : valueOf kvs key = [] := by
  rw [valueOf, lookup_eq_none_iff.mpr h]
  rfl

theorem entryBytes_restart {i : ℕ} (h : i &&& (cfg.restartGroupSize - 1) = 0)
    (prev key value : Bytes) : entryBytes cfg i prev key value = restartEntry key value :=
  if_neg (not_not.mpr h)

theorem restartKeyAt_eq {d : BlockDecoder} {offset : ℕ} {rest : Bytes}
    (h : d.page.drop offset = restartEntry key value ++ rest)
    (hkey : 1 ≤ key.length ∧ key.length ≤ maxKeyLen) : d.restartKeyAt offset = some key := by
  have hdrop : d.page.drop offset = encodeKeySize key.length ::
      (key ++ (unsafeVarint value.length ++ value ++ rest)) := by
    rw [h, restartEntry]
    simp
  rw [BlockDecoder.restartKeyAt, hdrop]
  dsimp only
  rw [decodeKeySize_encodeKeySize hkey, if_pos (by simp), take_left' rfl]

theorem lt_groupCount_iff (hcfg : cfg.restartGroupSize = 2 ^ s) {j : ℕ} :
    j < groupCount cfg kvs ↔ j * 2 ^ s < kvs.length := by
  have hpos : 0 < 2 ^ s := Nat.two_pow_pos s
  rw [groupCount, hcfg, Nat.lt_div_iff_mul_lt hpos, Nat.mul_comm]
  omega

/-- What lies at the offset of a group: its first entry in full, and the ones behind it. -/
theorem drop_group (hcfg : cfg.restartGroupSize = 2 ^ s) (tail : Bytes) {j : ℕ}
    (hlt : j * 2 ^ s < kvs.length) :
    (body cfg 0 [] kvs ++ tail).drop (body cfg 0 [] (kvs.take (j * 2 ^ s))).length =
      restartEntry kvs[j * 2 ^ s].1 kvs[j * 2 ^ s].2 ++
        (body cfg (j * 2 ^ s + 1) kvs[j * 2 ^ s].1 (kvs.drop (j * 2 ^ s + 1)) ++ tail) := by
  have hmask : j * 2 ^ s &&& (cfg.restartGroupSize - 1) = 0 := by
    rw [hcfg, Nat.and_two_pow_sub_one_eq_mod, Nat.mul_mod_left]
  have hsplit : body cfg 0 [] _ = _ :=
    body_append 0 [] (kvs.take (j * 2 ^ s)) (kvs.drop (j * 2 ^ s))
  rw [take_append_drop, length_take, Nat.min_eq_left hlt.le, Nat.zero_add,
    drop_eq_getElem_cons hlt, body, entryBytes_restart hmask] at hsplit
  rw [hsplit, append_assoc, append_assoc, drop_left' rfl]

theorem BlockPage.fields (hsize : cfg.blockSizeInBytes = pageSizeInBytes)
    (hpage : BlockPage checksum cfg page kvs) :
    let ptr := cfg.blockSizeInBytes - sizeofBlockFooter - 2
    let n := groupCount cfg kvs
    (∃ tail, page = body cfg 0 [] kvs ++ tail) ∧ (body cfg 0 [] kvs).length ≤ pageSizeInBytes ∧
      (BlockDecoder.reset cfg page).kvCount = kvs.length ∧ n ≤ inlineVectorCapacity ∧
      n * 2 ≤ ptr ∧ ofLe ((page.drop ptr).take 2) = n ∧
      unpackAll 2 n (page.drop (ptr - n * 2)) = groupOffsets cfg kvs := by
  intro ptr n
  obtain ⟨e, henc, hcount, hoffsets, hcap, rfl⟩ := hpage
  obtain ⟨hbelow, hnumber, hslice⟩ := commit_trailer checksum henc
  have hlen := (length_le_body cfg 0 [] kvs).1
  have hroom := henc.room
  rw [hsize] at hroom
  have hn : e.offsets.length = n := by
    rw [hoffsets, groupOffsets, length_map, length_range]
  have hsmall : ∀ o ∈ groupOffsets cfg kvs, o < 2 ^ 16 := by
    intro o ho
    obtain ⟨j, -, rfl⟩ := mem_map.mp ho
    have hsplit : body cfg 0 [] _ = _ := body_append 0 [] (kvs.take (j * cfg.restartGroupSize))
      (kvs.drop (j * cfg.restartGroupSize))
    rw [take_append_drop] at hsplit
    have hle := congrArg length hsplit
    rw [length_append] at hle
    rw [pageSizeInBytes] at hroom
    omega
  rw [hn] at hcap hbelow hnumber hslice
  refine ⟨⟨(e.commit checksum cfg).page.drop (body cfg 0 [] kvs).length, ?_⟩, by omega, ?_, hcap,
    hbelow, ?_, ?_⟩
  · conv_lhs => rw [← take_append_drop (body cfg 0 [] kvs).length
      (e.commit checksum cfg).page]
    rw [(commit_spec checksum henc).1.written]
  · rw [pageSizeInBytes] at hroom
    rw [reset_commit checksum henc, hcount, Nat.mod_eq_of_lt (by omega)]
  · rw [hnumber]
    rw [inlineVectorCapacity] at hcap
    exact ofLe_le_of_lt (by omega)
  · have hlength : (groupOffsets cfg kvs).length = n := by rw [← hoffsets, hn]
    rw [← hoffsets] at hlength hsmall ⊢
    rw [← hlength] at hslice ⊢
    rw [← take_append_drop (e.offsets.length * 2) (drop _ _), hslice]
    exact unpackAll_flatMap_le hsmall _

/-- The groups that start at a key up to `key` come first, and the binary search finds their
number. -/
theorem partitionPoint_groups (hcfg : cfg.restartGroupSize = 2 ^ s) {d : BlockDecoder}
    {tail : Bytes} (hpage : d.page = body cfg 0 [] kvs ++ tail)
    (hsorted : kvs.Pairwise fun a b => a.1 < b.1)
    (hkeys : ∀ kv ∈ kvs, 1 ≤ kv.1.length ∧ kv.1.length ≤ maxKeyLen) (key : Bytes) :
    ∃ m ≤ groupCount cfg kvs,
      partitionPoint (fun offset => (d.restartKeyAt offset).map fun restartKey =>
        !decide (key < restartKey)) (groupOffsets cfg kvs) = some m ∧
      ∀ j (hj : j * 2 ^ s < kvs.length), kvs[j * 2 ^ s].1 ≤ key ↔ j < m := by
  -- the test at the offset of a group compares with the first key of the group
  have htest : ∀ j ∈ range (groupCount cfg kvs),
      (((fun offset => (d.restartKeyAt offset).map fun restartKey => !decide (key < restartKey)) ∘
        fun j => (body cfg 0 [] (kvs.take (j * cfg.restartGroupSize))).length) j) =
        some (!decide (key < (kvs.getD (j * 2 ^ s) ([], [])).1)) := by
    intro j hj
    have hlt := (lt_groupCount_iff hcfg).mp (mem_range.mp hj)
    have hdrop := drop_group hcfg tail hlt
    rw [← hpage] at hdrop
    simp only [Function.comp_apply, hcfg, restartKeyAt_eq hdrop (hkeys _ (getElem_mem _)),
      map_some, getD_eq_getElem _ _ hlt]
  have hmono : (range (groupCount cfg kvs)).Pairwise fun i j =>
      (!decide (key < (kvs.getD (j * 2 ^ s) ([], [])).1)) = true →
        (!decide (key < (kvs.getD (i * 2 ^ s) ([], [])).1)) = true := by
    refine (pairwise_lt_range).imp_of_mem fun {i j} hi hj hij => ?_
    have hlt := (lt_groupCount_iff hcfg).mp (mem_range.mp hj)
    have hle : i * 2 ^ s < j * 2 ^ s := Nat.mul_lt_mul_of_pos_right hij (Nat.two_pow_pos s)
    have hkey := pairwise_iff_getElem.mp hsorted _ _ (hle.trans hlt) hlt hle
    simp only [getD_eq_getElem _ _ hlt, getD_eq_getElem _ _ (hle.trans hlt),
      Bool.not_eq_true', decide_eq_false_iff_not, not_lt]
    exact hkey.le.trans
  obtain ⟨m, hm, hpoint, hbefore, hbehind⟩ := partitionPoint_spec htest hmono
  rw [length_range] at hm
  refine ⟨m, hm, ?_, fun j hj => ⟨fun hle => ?_, ?_⟩⟩
  · rw [groupOffsets, partitionPoint_map, hpoint]
    rfl
  · by_contra hge
    have hmem : j ∈ (range (groupCount cfg kvs)).drop m := by
      refine mem_iff_getElem?.mpr ⟨j - m, ?_⟩
      rw [getElem?_drop, Nat.add_sub_cancel' (Nat.not_lt.mp hge),
        getElem?_range ((lt_groupCount_iff hcfg).mpr hj)]
    have htrue := hbehind j hmem
    rw [getD_eq_getElem _ _ hj] at htrue
    simp [hle.not_gt] at htrue
  · intro hlt
    have hmem : j ∈ (range (groupCount cfg kvs)).take m := by
      rw [take_range, Nat.min_eq_left hm]
      exact mem_range.mpr hlt
    have htrue := hbefore j hmem
    rw [getD_eq_getElem _ _ hj] at htrue
    simpa using htrue

/-- **The binary search.**  No key of the block is as small as the key that is asked for,
or the iterator is put behind the first entry of the one group that may hold it. -/
theorem find_cases (hcfg : cfg.restartGroupSize = 2 ^ s)
    (hsize : cfg.blockSizeInBytes = pageSizeInBytes) (hpage : BlockPage checksum cfg page kvs)
    (hsorted : kvs.Pairwise fun a b => a.1 < b.1)
    (hkeys : ∀ kv ∈ kvs, 1 ≤ kv.1.length ∧ kv.1.length ≤ maxKeyLen) (key : Bytes) :
    (∀ kv ∈ kvs, key < kv.1) ∧ (BlockDecoder.reset cfg page).find cfg key = some [] ∨
      ∃ done k v more rest, kvs = done ++ (k, v) :: more ∧ k ≤ key ∧
        (∀ kv ∈ ((k, v) :: more).drop (2 ^ s), key < kv.1) ∧
        (BlockDecoder.reset cfg page).find cfg key =
          ({ head := body cfg (done.length + 1) k more ++ rest, kvIdx := done.length + 1
             kvsInBlockCount := kvs.length, restartGroupSize := 2 ^ s % 2 ^ 32
             key := k, value := v } : BlockIterator).findInGroup key done.length
              (kvs.length + 1) := by
  obtain ⟨⟨tail, htail⟩, hroom, hcount, hcap, hbelow, hnumber, hread⟩ :=
    hpage.fields checksum hsize
  have hdpage : (BlockDecoder.reset cfg page).page = page := rfl
  obtain ⟨hlen, hvalues⟩ := length_le_body cfg 0 [] kvs
  rw [pageSizeInBytes] at hroom
  obtain ⟨m, hm, hpoint, hgroups⟩ := partitionPoint_groups hcfg (hdpage.trans htail) hsorted hkeys key
  rw [BlockDecoder.find]
  simp only [hdpage, hnumber, hread]
  rw [if_neg (by omega), hpoint, hcount]
  simp only [bind_eq_bind, bind_some]
  rcases m with - | m
  · refine .inl ⟨fun kv hkv => ?_, if_pos rfl⟩
    rcases kvs with - | ⟨first, kvs⟩
    · exact absurd hkv not_mem_nil
    · have hfirst : key < first.1 := by
        have := hgroups 0 (by simp)
        simpa using this
      rcases mem_cons.mp hkv with rfl | hkv'
      · exact hfirst
      · exact hfirst.trans ((pairwise_cons.mp hsorted).1 kv hkv')
  · have hlt := (lt_groupCount_iff hcfg).mp hm
    have hkey := hkeys _ (getElem_mem hlt)
    refine .inr ⟨kvs.take (m * 2 ^ s), kvs[m * 2 ^ s].1, kvs[m * 2 ^ s].2,
      kvs.drop (m * 2 ^ s + 1), tail, ?_, (hgroups m hlt).mpr (Nat.lt_succ_self m), ?_, ?_⟩
    · show kvs = kvs.take (m * 2 ^ s) ++ kvs[m * 2 ^ s] :: kvs.drop (m * 2 ^ s + 1)
      rw [← drop_eq_getElem_cons hlt, take_append_drop]
    · -- the entries behind the group are behind the first key of the next one
      intro kv hkv
      have hdrop : kvs[m * 2 ^ s] :: kvs.drop (m * 2 ^ s + 1) = kvs.drop (m * 2 ^ s) :=
        (drop_eq_getElem_cons hlt).symm
      rw [Prod.mk.eta, hdrop, drop_drop, ← Nat.succ_mul] at hkv
      have hnext : m.succ * 2 ^ s < kvs.length := by
        by_contra hge
        rw [drop_of_length_le (Nat.not_lt.mp hge)] at hkv
        exact absurd hkv not_mem_nil
      have hbehind : key < kvs[m.succ * 2 ^ s].1 :=
        lt_of_not_ge fun hle => (Nat.lt_irrefl _ ((hgroups _ hnext).mp hle))
      have hsuffix := hsorted.drop (i := m.succ * 2 ^ s)
      rw [drop_eq_getElem_cons hnext] at hkv hsuffix
      rcases mem_cons.mp hkv with rfl | hkv'
      · exact hbehind
      · exact hbehind.trans ((pairwise_cons.mp hsuffix).1 kv hkv')
    · have hoffset : (groupOffsets cfg kvs).getD m 0 =
          (body cfg 0 [] (kvs.take (m * 2 ^ s))).length := by
        rw [groupOffsets, hcfg]
        simp [getD_eq_getElem?_getD, getElem?_range hm]
      have hmod : m * 2 ^ s % 2 ^ 32 = m * 2 ^ s := Nat.mod_eq_of_lt (by omega)
      have hmask : m * 2 ^ s &&& (cfg.restartGroupSize - 1) = 0 := by
        rw [hcfg, Nat.and_two_pow_sub_one_eq_mod, Nat.mul_mod_left]
      rw [if_neg (Nat.succ_ne_zero m), Nat.add_sub_cancel, hoffset, hcfg, hmod, htail,
        drop_group hcfg tail hlt, length_take, Nat.min_eq_left hlt.le]
      rw [readNext_entry hcfg rfl hlt (show kvs.length < 2 ^ 16 by omega)
        (congrArg (· ++ _) (entryBytes_restart hmask [] _ _).symm) hkey ?_
        fun hlost => hlost.1 hmask]
      · rfl
      · have := hvalues _ (getElem_mem hlt)
        omega

/-! ### Reading the group -/

theorem atGroupEnd_eq {it : BlockIterator} {start : ℕ} (hs : s < 32) (hstart : start < 2 ^ 16)
    (hgroup : it.restartGroupSize = 2 ^ s % 2 ^ 32) :
    it.atGroupEnd start =
      decide (start + 2 ^ s < it.kvIdx ∨ it.kvsInBlockCount < it.kvIdx) := by
  have hsmall : 2 ^ s ≤ 2 ^ 31 := Nat.pow_le_pow_right (by decide) (by omega)
  rw [BlockIterator.atGroupEnd, hgroup, Nat.mod_eq_of_lt (by omega : 2 ^ s < 2 ^ 32),
    Nat.mod_eq_of_lt (by omega)]
  simp

/-- Reading a group finds the value of its key.  The iterator is behind an entry, `n`
entries of the group are left with this one, and `more` is what comes in the block. -/
theorem findInGroup_spec (it : BlockIterator) (key : Bytes) (start n fuel : ℕ)
    (more : List (Bytes × Bytes)) (rest : Bytes) (hcfg : cfg.restartGroupSize = 2 ^ s)
    (hgroup : it.restartGroupSize = 2 ^ s % 2 ^ 32) (hs : s < 32)
    (hn : it.kvIdx + n = start + 2 ^ s + 1) (hstart : start < 2 ^ 16)
    (hfuel : more.length + 2 ≤ fuel) (hidx : it.kvIdx + more.length = it.kvsInBlockCount)
    (hcount : it.kvsInBlockCount < 2 ^ 16)
    (hhead : it.head = body cfg it.kvIdx it.key more ++ rest)
    (hkeys : ∀ kv ∈ more, 1 ≤ kv.1.length ∧ kv.1.length ≤ maxKeyLen)
    (hprev : it.key.length ≤ maxKeyLen) (hvalues : ∀ kv ∈ more, kv.2.length < 2 ^ 14)
    (hne : ((it.key, it.value) :: more).Pairwise fun a b => a.1 ≠ b.1)
    (hread : Readable cfg it.kvIdx it.key more) :
    it.findInGroup key start fuel =
      some (valueOf (((it.key, it.value) :: more).take n) key) := by
  induction more generalizing it n fuel with
  | nil =>
    obtain ⟨fuel, rfl⟩ : ∃ m, fuel = m + 2 := ⟨fuel - 2, by simp at hfuel; omega⟩
    have hlast : it.kvIdx = it.kvsInBlockCount := hidx
    rw [BlockIterator.findInGroup, atGroupEnd_eq hs hstart hgroup]
    rcases n with - | n
    · rw [if_pos (decide_eq_true (by omega))]
      rfl
    · rw [if_neg (by rw [decide_eq_true_eq]; omega), take_succ_cons, valueOf_cons, take_nil]
      split
      · rfl
      · -- the iterator leaves the block
        have hend : ({ it with kvIdx := it.kvIdx + 1 } : BlockIterator).atGroupEnd start = true := by
          simp [BlockIterator.atGroupEnd, hlast]
        rw [readNext_end hlast.ge]
        simp only [bind_eq_bind, bind_some, BlockIterator.findInGroup, hend, if_true]
        rfl
  | cons kv more ih =>
    obtain ⟨k, v⟩ := kv
    obtain ⟨fuel, rfl⟩ : ∃ m, fuel = m + 1 := ⟨fuel - 1, by omega⟩
    rw [length_cons] at hidx hfuel
    rw [body, append_assoc] at hhead
    obtain ⟨hfirst, hne'⟩ := pairwise_cons.mp hne
    have hlt : it.kvIdx < it.kvsInBlockCount := by omega
    rw [BlockIterator.findInGroup, atGroupEnd_eq hs hstart hgroup]
    rcases n with - | n
    · rw [if_pos (decide_eq_true (by omega))]
      rfl
    · rw [if_neg (by rw [decide_eq_true_eq]; omega), take_succ_cons, valueOf_cons]
      split
      · rfl
      · have hkey := hkeys _ mem_cons_self
        have hlost := mt (lostLength_iff (hfirst _ mem_cons_self) hprev).mp hread.1
        rw [readNext_entry hcfg hgroup hlt hcount hhead hkey (hvalues _ mem_cons_self) hlost]
        exact ih { it with head := body cfg (it.kvIdx + 1) k more ++ rest, kvIdx := it.kvIdx + 1
                           key := k, value := v } n fuel hgroup (by dsimp only; omega) (by omega)
          (by dsimp only; omega) hcount rfl (fun kv h => hkeys kv (mem_cons_of_mem _ h))
          hkey.2 (fun kv h => hvalues kv (mem_cons_of_mem _ h)) hne' hread.2

theorem valueOf_group {done group behind : List (Bytes × Bytes)} {k v : Bytes}
    (hsorted : (done ++ (k, v) :: (group ++ behind)).Pairwise fun a b => a.1 < b.1)
    (hle : k ≤ key) (hbehind : ∀ kv ∈ behind, key < kv.1) :
    valueOf (done ++ (k, v) :: (group ++ behind)) key = valueOf ((k, v) :: group) key := by
  have hdone : ∀ kv ∈ done, kv.1 ≠ key := by
    intro kv hkv
    have hlt := (pairwise_append.mp hsorted).2.2 kv hkv _ mem_cons_self
    exact (hlt.trans_le hle).ne
  have hnone : lookup Prod.fst behind key = none :=
    lookup_eq_none_iff.mpr fun kv hkv => (hbehind kv hkv).ne'
  rw [valueOf, valueOf, lookup_append, lookup_eq_none_iff.mpr hdone, none_or,
    ← cons_append, lookup_append, hnone, or_none]

/-- **`find` agrees with a scan of the entries**, on a page that can be read back. -/
theorem find_spec (hcfg : cfg.restartGroupSize = 2 ^ s)
    (hsize : cfg.blockSizeInBytes = pageSizeInBytes) (hs : s < 32)
    (hpage : BlockPage checksum cfg page kvs) (hsorted : kvs.Pairwise fun a b => a.1 < b.1)
    (hkeys : ∀ kv ∈ kvs, 1 ≤ kv.1.length ∧ kv.1.length ≤ maxKeyLen)
    (hread : Readable cfg 0 [] kvs) (key : Bytes) :
    (BlockDecoder.reset cfg page).find cfg key = some (valueOf kvs key) := by
  rcases find_cases checksum hcfg hsize hpage hsorted hkeys key with
    ⟨hnone, hfind⟩ | ⟨done, k, v, more, rest, rfl, hle, hbehind, hfind⟩
  · rw [hfind, valueOf_of_not_mem fun kv hkv => (hnone kv hkv).ne']
  · obtain ⟨hlen, hvalues⟩ := length_le_body cfg 0 [] (done ++ (k, v) :: more)
    obtain ⟨-, hroom, -⟩ := hpage.fields checksum hsize
    rw [pageSizeInBytes] at hroom
    rw [length_append, length_cons] at hlen
    obtain ⟨n, hn⟩ : ∃ n, 2 ^ s = n + 1 := Nat.exists_eq_succ_of_ne_zero (Nat.two_pow_pos s).ne'
    rw [hn, drop_succ_cons] at hbehind
    have hmore : ∀ kv ∈ more, kv ∈ done ++ (k, v) :: more := fun kv hkv =>
      mem_append_right _ (mem_cons_of_mem _ hkv)
    have hsuffix := (pairwise_append.mp hsorted).2.1
    have hread' := ((readable_append 0 [] done ((k, v) :: more)).mp hread).2.2
    rw [Nat.zero_add] at hread'
    have hscan := findInGroup_spec
      { head := body cfg (done.length + 1) k more ++ rest, kvIdx := done.length + 1
        kvsInBlockCount := (done ++ (k, v) :: more).length, restartGroupSize := 2 ^ s % 2 ^ 32
        key := k, value := v }
      key done.length (2 ^ s) ((done ++ (k, v) :: more).length + 1) more rest
      hcfg rfl hs (Nat.add_right_comm _ _ _) (by omega)
      (by rw [length_append, length_cons]; omega)
      (by rw [length_append, length_cons]; dsimp only; omega)
      (by rw [length_append, length_cons]; dsimp only; omega) rfl
      (fun kv hkv => hkeys kv (hmore kv hkv))
      (hkeys (k, v) (mem_append_right _ mem_cons_self)).2
      (fun kv hkv => by have := hvalues kv (hmore kv hkv); omega) (hsuffix.imp ne_of_lt) hread'
    have hsplit : more.take n ++ more.drop n = more := take_append_drop n more
    rw [hfind, hscan, hn, take_succ_cons]
    conv_rhs => rw [← hsplit]
    rw [valueOf_group (by rwa [hsplit]) hle hbehind]

theorem find_lost (hcfg : cfg.restartGroupSize = 2 ^ s)
    (hsize : cfg.blockSizeInBytes = pageSizeInBytes) (hs : 32 ≤ s)
    (hpage : BlockPage checksum cfg page kvs) (hsorted : kvs.Pairwise fun a b => a.1 < b.1)
    (hkeys : ∀ kv ∈ kvs, 1 ≤ kv.1.length ∧ kv.1.length ≤ maxKeyLen) (key : Bytes) :
    (BlockDecoder.reset cfg page).find cfg key = some [] := by
  rcases find_cases checksum hcfg hsize hpage hsorted hkeys key with
    ⟨-, hfind⟩ | ⟨done, k, v, more, rest, rfl, -, -, hfind⟩
  · exact hfind
  · have hzero : 2 ^ s % 2 ^ 32 = 0 := Nat.mod_eq_zero_of_dvd (Nat.pow_dvd_pow 2 hs)
    obtain ⟨-, hroom, -⟩ := hpage.fields checksum hsize
    have hlen := (length_le_body cfg 0 [] (done ++ (k, v) :: more)).1
    rw [pageSizeInBytes] at hroom
    rw [length_append] at hlen
    have hmod : done.length % 2 ^ 32 = done.length := Nat.mod_eq_of_lt (by omega)
    rw [hfind, BlockIterator.findInGroup, if_pos]
    simp only [BlockIterator.atGroupEnd, hzero, Nat.add_zero, hmod, gt_iff_lt, Nat.lt_succ_self,
      decide_true, Bool.true_or]

/-- **In-block search, exactly.**  On a page that is read back unchanged, `find` returns the
value stored with a key, and nothing for a key that was not pushed, if and only if the size
of a restart group fits in 32 bits or nothing was accepted. -/
theorem find_exact_iff (checksum : Bytes → UInt32) (s : ℕ) (hs : 1 ≤ s) (page : Bytes)
    (hpage : page.length = pageSizeInBytes) (kvs : List (Bytes × Bytes))
    (hsorted : kvs.Pairwise fun a b => a.1 < b.1) (hvalues : ∀ kv ∈ kvs, kv.2 ≠ []) :
    let r := (BlockEncoder.reset page).pushAll checksum (pageConfig s) kvs
    let d := BlockDecoder.reset (pageConfig s) (r.2.commit checksum (pageConfig s)).page
    d.entries (pageConfig s) = some r.1 →
      ((∀ key, (∀ value, (key, value) ∈ r.1 → d.find (pageConfig s) key = some value) ∧
          ((∀ value, (key, value) ∉ r.1) → d.find (pageConfig s) key = some [])) ↔
        s < 32 ∨ r.1 = []) := by
  intro r d hentries
  have hsub := pushAll_sublist checksum (pageConfig s) (BlockEncoder.reset page) kvs
  have hsorted' : r.1.Pairwise fun a b => a.1 < b.1 := hsorted.sublist hsub
  have hreset : BlockWrote (pageConfig s) [] _ := wrote_reset rfl rfl hpage
  obtain ⟨hblock, hkeys⟩ := hreset.pushAll checksum hs rfl rfl kvs
  rw [nil_append] at hblock
  have hread : Readable (pageConfig s) 0 [] r.1 := by
    obtain ⟨e, henc, hcount, -, -, hpage'⟩ := hblock
    refine (entries_eq_iff checksum rfl rfl henc hcount hkeys (hsorted'.imp ne_of_lt)).mp ?_
    rw [← hpage']
    exact hentries
  constructor
  · intro hfind
    by_contra hnot
    rw [not_or, Nat.not_lt] at hnot
    obtain ⟨⟨key, value⟩, rest, hr⟩ := exists_cons_of_ne_nil hnot.2
    have hmem : (key, value) ∈ r.1 := hr ▸ mem_cons_self
    have hlost := find_lost checksum rfl rfl hnot.1 hblock hsorted' hkeys key
    have hvalue := ((hfind key).1 value hmem).symm.trans hlost
    exact hvalues _ (hsub.subset hmem) (some.inj hvalue)
  · rintro (hlt | hnil) key
    · have hfind : d.find (pageConfig s) key = some (valueOf r.1 key) :=
        find_spec checksum rfl rfl hlt hblock hsorted' hkeys hread key
      refine ⟨fun value hmem => ?_, fun hnone => ?_⟩
      · rw [hfind, valueOf, (lookup_eq_some_iff hsorted').mpr ⟨hmem, rfl⟩]
        rfl
      · rw [hfind, valueOf_of_not_mem]
        rintro ⟨k, v⟩ hkv rfl
        exact hnone v hkv
    · refine ⟨fun value hmem => ?_, fun _ => ?_⟩
      · rw [hnil] at hmem
        exact absurd hmem not_mem_nil
      · rcases find_cases checksum rfl rfl hblock hsorted' hkeys key with
          ⟨-, hfind⟩ | ⟨done, k, v, more, rest, heq, -⟩
        · exact hfind
        · have := heq.symm.trans hnil
          simp at this

/-- Five entries in two restart groups. -/
def searchEntries : List (Bytes × Bytes) :=
  [([1], [7]), ([1, 2], [8]), ([2], [9, 9]), ([3], [10]), ([4], [11])]

theorem find_exact_two_groups :
    let r := (BlockEncoder.reset (replicate pageSizeInBytes 0)).pushAll (fun _ => 0)
      (pageConfig 2) searchEntries
    let d := BlockDecoder.reset (pageConfig 2) (r.2.commit (fun _ => 0) (pageConfig 2)).page
    d.entries (pageConfig 2) = some searchEntries ∧ d.find (pageConfig 2) [4] = some [11] ∧
      d.find (pageConfig 2) [1, 3] = some [] := by
  intro r d
  have haccepted : r.1 = searchEntries := by decide +kernel
  have hentries : d.entries (pageConfig 2) = some r.1 := by
    refine (accepted_entries_eq_iff (fun _ => 0) (by decide) length_replicate
      (by decide : searchEntries.Pairwise fun a b => a.1 < b.1) (by decide)).1.mpr ?_
    show Readable (pageConfig 2) 0 [] r.1
    rw [haccepted]
    decide
  have hfind := (find_exact_iff (fun _ => 0) 2 (by decide) (replicate pageSizeInBytes 0)
    length_replicate searchEntries (by decide) (by decide) hentries).mpr (.inl (by decide))
  rw [haccepted] at hfind
  refine ⟨haccepted ▸ hentries, (hfind [4]).1 [11] (by decide), (hfind [1, 3]).2 fun value => ?_⟩
  simp [searchEntries]

/-- With restart groups of `2 ^ 32` entries the entries of a block are read back, and none
of them is found. -/
theorem find_loses_long_group :
    let r := (BlockEncoder.reset (replicate pageSizeInBytes 0)).pushAll (fun _ => 0)
      (pageConfig 32) [([1], [7])]
    let d := BlockDecoder.reset (pageConfig 32) (r.2.commit (fun _ => 0) (pageConfig 32)).page
    r.1 = [([1], [7])] ∧ d.entries (pageConfig 32) = some [([1], [7])] ∧
      d.find (pageConfig 32) [1] = some [] := by
  intro r d
  have haccepted : r.1 = [([1], [7])] := by decide +kernel
  have hsorted : [(([1], [7]) : Bytes × Bytes)].Pairwise fun a b => a.1 < b.1 := by decide
  have hreset : BlockWrote (pageConfig 32) [] _ := wrote_reset rfl rfl
    (length_replicate (n := pageSizeInBytes) (a := 0))
  obtain ⟨hblock, hkeys⟩ := hreset.pushAll (fun _ => 0) (by decide : 1 ≤ 32) rfl rfl
    [([1], [7])]
  refine ⟨haccepted, ?_, ?_⟩
  · rw [← haccepted]
    refine (accepted_entries_eq_iff (fun _ => 0) (by decide) length_replicate hsorted
      (by decide)).1.mpr ?_
    show Readable (pageConfig 32) 0 [] r.1
    rw [haccepted]
    decide
  · exact find_lost (fun _ => 0) rfl rfl le_rfl hblock (by rwa [nil_append, haccepted])
      hkeys [1]

end HedgeDB
