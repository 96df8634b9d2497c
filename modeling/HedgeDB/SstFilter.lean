/-
HedgeDB/SstFilter.lean

The filter of an SST (`src/db/quotient_filter.cc`, `create_qf_for_key_count` of
`src/db/index_ops.cc` and `src/db/merge/merge.cc`).

A filter is made for a number of keys, gets the hash of every key that is written, and goes
into the file as a struct and a table of words.  `insertAll_spec` says that it takes as many
hashes as it was made for: a third more slots than keys leave one empty, which is what every
loop of the filter needs.  `load_header_data` reads the struct and the table back.
-/
import HedgeDB.FilterInsert

namespace HedgeDB

open CircularRuns ByteCodec List Option

def qfBitsPerKey : ℕ := 10

/-- The loop of `create_qf_for_key_count`: `s` is doubled, in 64 bits, until it reaches
`slots`. -/
def quotientBits (slots : ℕ) : ℕ → ℕ → ℕ → Option ℕ
  | 0, _, _ => none
  | fuel + 1, s, q =>
      if s < slots then quotientBits slots fuel (s * 2 % 2 ^ 64) (q + 1) else some q

namespace QuotientFilter

def make (q r : ℕ) : Expected QuotientFilter :=
  match init q r with
  | some qf => .ok qf
  | none =>
      .error { msg := "Could not initialize the QF. q+r should be <= 64; also, check the memory" }

end QuotientFilter

/-- `create_qf_for_key_count`; the one of `index_ops.cc` throws what the other returns. -/
def createQfForKeyCount (fuel numKeys : ℕ) : Option (Expected QuotientFilter) := do
  let slots := (numKeys * 4 + 2) % 2 ^ 64 / 3
  let q ← quotientBits slots fuel 1 0
  some (QuotientFilter.make q qfBitsPerKey)

namespace QuotientFilter

/-- The hashes of the keys, one after the other. -/
def insertAll (fuel : ℕ) : QuotientFilter → List (BitVec 64) → Option (List Bool × QuotientFilter)
  | qf, [] => some ([], qf)
  | qf, hash :: hashes => do
      let (ok, qf) ← qf.insert fuel hash
      let (oks, qf) ← insertAll fuel qf hashes
      some (ok :: oks, qf)

/-! ### The bytes of a filter -/

/-- The fields of the struct, with the byte that aligns `qf_entries` and the address of the
table. -/
def headerFields (pad : UInt8) (address : BitVec 64) (qf : QuotientFilter) : List (ℕ × ℕ) :=
  [(1, qf.qbits), (1, qf.rbits), (1, qf.elemBits), (1, pad.toNat), (4, qf.entries),
    (8, qf.indexMask.toNat), (8, qf.rmask.toNat), (8, qf.elemMask.toNat), (8, qf.maxSize),
    (8, address.toNat)]

def headerWidths : List ℕ := [1, 1, 1, 1, 4, 8, 8, 8, 8, 8]

/-- `header_as_byte_span`. -/
def headerBytes (pad : UInt8) (address : BitVec 64) (qf : QuotientFilter) : Bytes :=
  pack (qf.headerFields pad address)

/-- `data_as_byte_span`. -/
def dataBytes (qf : QuotientFilter) : Bytes :=
  (qf.table.flatMap fun w => le 8 w.toNat).take qf.allocatedSize

/-- `memcpy` of the struct; its table is not set. -/
def ofHeader (header : Bytes) : QuotientFilter :=
  { qbits := field header 0 1
    rbits := field header 1 1
    elemBits := field header 2 1
    entries := field header 4 4
    indexMask := BitVec.ofNat 64 (field header 8 8)
    rmask := BitVec.ofNat 64 (field header 16 8)
    elemMask := BitVec.ofNat 64 (field header 24 8)
    maxSize := field header 32 8
    table := [] }

def load (headerData tableData : Bytes) (tableSize : ℕ) : Expected QuotientFilter :=
  let raw := ofHeader headerData
  let actualSize := raw.allocatedSize
  if actualSize ≠ tableSize then .error { msg := "quotient_filter::load: table size mismatch" }
  else .ok { raw with table := (unpackAll 8 (actualSize / 8) tableData).map (BitVec.ofNat 64) }

/-- A filter that its struct holds. -/
structure Storable (qf : QuotientFilter) : Prop where
  qbits : qf.qbits < 2 ^ 8
  rbits : qf.rbits < 2 ^ 8
  elemBits : qf.elemBits < 2 ^ 8
  entries : qf.entries < 2 ^ 32
  maxSize : qf.maxSize < 2 ^ 64
  length : qf.table.length = qf.allocatedSize / 8

theorem length_headerBytes (pad : UInt8) (address : BitVec 64) (qf : QuotientFilter) :
    (qf.headerBytes pad address).length = 48 := by
  rw [headerBytes, length_pack]
  show headerWidths.sum = 48
  decide

theorem allocatedSize_div_mul (qf : QuotientFilter) : qf.allocatedSize / 8 * 8 = qf.allocatedSize := by
  have hdvd : 8 ∣ qf.allocatedSize := by
    rw [allocatedSize, ceilPageAlign]
    exact Dvd.dvd.mul_left (by decide) _
  exact Nat.div_mul_cancel hdvd

variable {qf : QuotientFilter}

theorem Storable.dataBytes_eq (h : qf.Storable) :
    qf.dataBytes = (qf.table.map BitVec.toNat).flatMap (le 8) := by
  have hlen : (qf.table.flatMap fun w => le 8 w.toNat).length ≤ qf.allocatedSize := by
    rw [length_flatMap, ← qf.allocatedSize_div_mul, ← h.length]
    simp
  rw [dataBytes, take_of_length_le hlen, flatMap_map]

theorem Storable.length_dataBytes (h : qf.Storable) : qf.dataBytes.length = qf.allocatedSize := by
  rw [h.dataBytes_eq, length_flatMap, ← qf.allocatedSize_div_mul, ← h.length]
  simp [Function.comp_def]

theorem Storable.ofHeader (h : qf.Storable) (pad : UInt8) (address : BitVec 64) (rest : Bytes) :
    ofHeader (qf.headerBytes pad address ++ rest) = { qf with table := [] } := by
  have hwidths : (qf.headerFields pad address).map Prod.fst = headerWidths := rfl
  have hword : (2 : ℕ) ^ 64 = 256 ^ 8 := by decide
  have hqbits : field _ 0 1 = qf.qbits :=
    field_pack hwidths (i := 0) (by decide) rfl (h.qbits.trans_eq (by decide)) rest
  have hrbits : field _ 1 1 = qf.rbits :=
    field_pack hwidths (i := 1) (by decide) rfl (h.rbits.trans_eq (by decide)) rest
  have helemBits : field _ 2 1 = qf.elemBits :=
    field_pack hwidths (i := 2) (by decide) rfl (h.elemBits.trans_eq (by decide)) rest
  have hentries : field _ 4 4 = qf.entries :=
    field_pack hwidths (i := 4) (by decide) rfl (h.entries.trans_eq (by decide)) rest
  have hindexMask : field _ 8 8 = qf.indexMask.toNat :=
    field_pack hwidths (i := 5) (by decide) rfl (qf.indexMask.isLt.trans_eq hword) rest
  have hrmask : field _ 16 8 = qf.rmask.toNat :=
    field_pack hwidths (i := 6) (by decide) rfl (qf.rmask.isLt.trans_eq hword) rest
  have helemMask : field _ 24 8 = qf.elemMask.toNat :=
    field_pack hwidths (i := 7) (by decide) rfl (qf.elemMask.isLt.trans_eq hword) rest
  have hmaxSize : field _ 32 8 = qf.maxSize :=
    field_pack hwidths (i := 8) (by decide) rfl (h.maxSize.trans_eq hword) rest
  rw [QuotientFilter.ofHeader, headerBytes, hqbits, hrbits, helemBits, hentries, hindexMask,
    hrmask, helemMask, hmaxSize, BitVec.ofNat_toNat, BitVec.ofNat_toNat, BitVec.ofNat_toNat, BitVec.setWidth_eq,
    BitVec.setWidth_eq, BitVec.setWidth_eq]

/-- **The filter is read back** from its struct and its table, whatever stands behind them. -/
theorem Storable.load_header_data (h : qf.Storable) (pad : UInt8) (address : BitVec 64)
    (rest rest' : Bytes) :
    load (qf.headerBytes pad address ++ rest) (qf.dataBytes ++ rest') qf.allocatedSize = .ok qf := by
  have hsize : ({ qf with table := [] } : QuotientFilter).allocatedSize = qf.allocatedSize := rfl
  have hwords : ∀ v ∈ qf.table.map BitVec.toNat, v < 256 ^ 8 := by
    intro v hv
    obtain ⟨w, -, rfl⟩ := mem_map.mp hv
    exact w.isLt.trans_eq (by decide)
  have htable := unpackAll_flatMap_le hwords rest'
  rw [length_map, h.length, ← h.dataBytes_eq] at htable
  have hback : (qf.table.map BitVec.toNat).map (BitVec.ofNat 64) = qf.table := by
    simp [Function.comp_def]
  rw [load, h.ofHeader]
  dsimp only
  rw [hsize, if_neg (not_not.mpr rfl), htable, hback]

/-! ### What an insertion does not change -/

section Kept

variable {qf qf' : QuotientFilter} {fuel : ℕ}

theorem Storable.setElem (h : qf.Storable) (idx elt : BitVec 64) : (qf.setElem idx elt).Storable := by
  obtain ⟨table, heq, hlen⟩ := qf.setElem_eq idx elt
  rw [heq]
  exact { h with length := hlen.trans h.length }

theorem Storable.count (h : qf.Storable) :
    ({ qf with entries := (qf.entries + 1) % 2 ^ 32 } : QuotientFilter).Storable :=
  { h with entries := Nat.mod_lt _ (by decide) }

theorem Storable.insertInto (h : qf.Storable) {s curr : BitVec 64}
    (hinsert : insertInto fuel qf s curr = some qf') : qf'.Storable := by
  induction fuel generalizing qf s curr with
  | zero => cases hinsert
  | succ fuel ih =>
    rw [QuotientFilter.insertInto] at hinsert
    dsimp only at hinsert
    split at hinsert
    · cases hinsert
      exact h.setElem _ _
    · split at hinsert
      · exact ih (h.setElem _ _) hinsert
      · exact ih (h.setElem _ _) hinsert

theorem Storable.insertEntry (h : qf.Storable) {fq s entry : BitVec 64} {ok : Bool}
    (hinsert : qf.insertEntry fuel fq s entry = some (ok, qf')) : qf'.Storable := by
  obtain ⟨qf₁, hinto, heq⟩ := bind_eq_some_iff.mp hinsert
  cases heq
  exact (h.insertInto hinto).count

theorem Storable.insert (h : qf.Storable) {hash : BitVec 64} {ok : Bool}
    (hinsert : qf.insert fuel hash = some (ok, qf')) : qf'.Storable := by
  rw [QuotientFilter.insert] at hinsert
  dsimp only at hinsert
  split at hinsert
  · cases hinsert
    exact h
  · split at hinsert
    · cases hinsert
      exact (h.setElem _ _).count
    · split at hinsert
      · obtain ⟨start, -, hrun⟩ := bind_eq_some_iff.mp hinsert
        obtain ⟨⟨found, s⟩, -, hrun⟩ := bind_eq_some_iff.mp hrun
        dsimp only at hrun
        split at hrun
        · cases hrun
          exact h
        · split at hrun
          · exact (h.setElem _ _).insertEntry hrun
          · exact h.insertEntry hrun
      · obtain ⟨s, -, hrun⟩ := bind_eq_some_iff.mp hinsert
        exact (h.setElem _ _).insertEntry hrun

theorem Storable.insertAll (h : qf.Storable) {hashes : List (BitVec 64)} {oks : List Bool}
    (hinsert : qf.insertAll fuel hashes = some (oks, qf')) : qf'.Storable := by
  induction hashes generalizing qf oks with
  | nil =>
    cases hinsert
    exact h
  | cons hash hashes ih =>
    obtain ⟨⟨ok, qf₁⟩, hfirst, hrest⟩ := bind_eq_some_iff.mp hinsert
    obtain ⟨⟨oks', qf₂⟩, hall, heq⟩ := bind_eq_some_iff.mp hrest
    cases heq
    exact ih (h.insert hfirst) hall

theorem init_storable {q r : ℕ} (hinit : init q r = some qf) : qf.Storable := by
  rw [init] at hinit
  split at hinit
  · cases hinit
  · next hqr =>
    cases hinit
    have hpow : 2 ^ q < 2 ^ 64 := Nat.pow_lt_pow_right (by decide) (by omega)
    refine ⟨?_, ?_, ?_, ?_, hpow, length_replicate⟩
    · show q < 2 ^ 8
      omega
    · show r < 2 ^ 8
      omega
    · show r + 3 < 2 ^ 8
      omega
    · show 0 < 2 ^ 32
      decide

end Kept

/-! ### As many hashes as it was made for -/

section Insert

variable {q r fuel : ℕ} {qf : QuotientFilter} {d : ℤ → Option ℕ}

theorem blank_shape (hq : q < 64) (hr : r + 3 < 64) (hbits : (r + 3) * 2 ^ q < 2 ^ 64) :
    (blank q r).Shape q r :=
  { qbits := rfl, rbits := rfl, elemBits := rfl, indexMask := rfl, rmask := rfl, elemMask := rfl
    maxSize := rfl, qbits_lt := hq, elemBits_lt := hr, bits_lt := hbits
    length := length_replicate }

theorem slots_blank (h : (blank q r).Shape q r) (p : ℤ) :
    (blank q r).slots q p = ⟨false, false, false, 0⟩ := by
  have hzero : (blank q r).getElem (slotIndex q p) = 0#64 := by
    apply BitVec.eq_of_getLsbD_eq
    intro j _
    have hword : ∀ i, (blank q r).table.getD i 0#64 = 0#64 := by
      intro i
      rw [blank, getD_eq_getElem?_getD, getElem?_replicate]
      split <;> rfl
    rw [h.getElem_bit (slotIndex_lt h.qbits_lt p), wordBit, hword, BitVec.getLsbD_zero,
      Bool.and_false, BitVec.getLsbD_zero]
  rw [slots, hzero]
  rfl

theorem blank_represents (h : (blank q r).Shape q r) :
    Represents q r (blank q r) fun _ => none := by
  refine ⟨h, ⟨slots_periodic _, fun _ => rfl, fun p => ⟨?_, ?_, ?_⟩, fun x => ?_⟩, ?_⟩
  · intro k hk
    cases hk
  · rw [slots_blank h]
    exact iff_of_false Bool.false_ne_true fun ⟨k, hk, _⟩ => by cases hk
  · rw [slots_blank h]
    exact iff_of_false Bool.false_ne_true fun ⟨k, hk⟩ => by cases hk
  · rw [slots_blank h]
    refine iff_of_false Bool.false_ne_true ?_
    rintro (⟨k, hk⟩ | hf)
    · cases hk
    · exact hf
  · simp [used, blank]

theorem Represents.insertAll_spec (h : Represents q r qf d) (hq : q ≤ 32) (hfuel : 2 ^ q ≤ fuel)
    (hashes : List (BitVec 64)) (hused : used (2 ^ q) d + hashes.length < 2 ^ q) :
    ∃ qf' d', qf.insertAll fuel hashes = some (replicate hashes.length true, qf') ∧
      Represents q r qf' d' ∧ used (2 ^ q) d' < 2 ^ q ∧
      (∀ hash ∈ hashes, Contains q r qf' d' hash) ∧
      ∀ other, Contains q r qf d other → Contains q r qf' d' other := by
  induction hashes generalizing qf d with
  | nil =>
    exact ⟨qf, d, rfl, h, hused, forall_mem_nil _, fun _ hother => hother⟩
  | cons hash hashes ih =>
    rw [length_cons] at hused
    obtain ⟨qf₁, d₁, hinsert, hgains⟩ := h.insert_spec hq (by omega) hfuel hash
    have hle := hgains.used_le
    obtain ⟨qf', d', hall, h', hused', hmem, hkeeps⟩ := ih hgains.represents (by omega)
    refine ⟨qf', d', ?_, h', hused', ?_, fun other hother => hkeeps _ (hgains.keeps other hother)⟩
    · rw [insertAll, hinsert, bind_eq_bind, bind_some]
      dsimp only
      rw [hall]
      rfl
    · exact forall_mem_cons.mpr ⟨hkeeps _ hgains.contains, hmem⟩

end Insert

end QuotientFilter

/-! ### The number of slots -/

theorem quotientBits_spec {slots : ℕ} (fuel q₀ : ℕ) (hslots : slots ≤ 2 ^ 32) (hq₀ : q₀ ≤ 32)
    (hfuel : 32 < q₀ + fuel) :
    ∃ q, quotientBits slots fuel (2 ^ q₀) q₀ = some q ∧ q₀ ≤ q ∧ q ≤ 32 ∧ slots ≤ 2 ^ q := by
  induction fuel generalizing q₀ with
  | zero => omega
  | succ fuel ih =>
    rw [quotientBits]
    split
    · next hlt =>
      -- `2 ^ 32` slots are enough
      have hne : q₀ ≠ 32 := by
        rintro rfl
        omega
      have hpow : 2 ^ q₀ * 2 % 2 ^ 64 = 2 ^ (q₀ + 1) := by
        have hlt' : 2 ^ (q₀ + 1) < 2 ^ 64 := Nat.pow_lt_pow_right (by decide) (by omega)
        rw [← pow_succ, Nat.mod_eq_of_lt hlt']
      rw [hpow]
      obtain ⟨q, hq, hle, hle', hslots'⟩ := ih (q₀ + 1) (by omega) (by omega)
      exact ⟨q, hq, by omega, hle', hslots'⟩
    · next hge => exact ⟨q₀, rfl, le_rfl, hq₀, not_lt.mp hge⟩

/-- **`create_qf_for_key_count`** leaves a slot more than there are keys. -/
theorem createQfForKeyCount_spec {n fuel : ℕ} (hn : 1 ≤ n) (hn' : n < 2 ^ 31) (hfuel : 32 < fuel) :
    ∃ q, q ≤ 32 ∧ n < 2 ^ q ∧
      createQfForKeyCount fuel n = some (.ok (QuotientFilter.blank q qfBitsPerKey)) ∧
      (QuotientFilter.blank q qfBitsPerKey).Shape q qfBitsPerKey := by
  have hslots : (n * 4 + 2) % 2 ^ 64 / 3 = (n * 4 + 2) / 3 := by
    rw [Nat.mod_eq_of_lt (by omega)]
  obtain ⟨q, hq, -, hle, hge⟩ := quotientBits_spec fuel 0
    (show (n * 4 + 2) / 3 ≤ 2 ^ 32 by omega) (by omega) (by omega)
  have hpos : q ≠ 0 := by
    rintro rfl
    omega
  have hpow : 2 ^ q ≤ 2 ^ 32 := Nat.pow_le_pow_right (by decide) hle
  refine ⟨q, hle, by omega, ?_, QuotientFilter.blank_shape (by omega) (by decide) ?_⟩
  · rw [createQfForKeyCount, hslots]
    show (quotientBits _ fuel (2 ^ 0) 0).bind _ = _
    rw [hq, bind_some, QuotientFilter.make, QuotientFilter.init,
      if_neg (by rw [qfBitsPerKey]; omega)]
  · rw [qfBitsPerKey]
    omega

/-- **A filter takes as many hashes as it was made for**, and finds them. -/
theorem createQfForKeyCount_insertAll {n fuel : ℕ} (hn : 1 ≤ n) (hn' : n < 2 ^ 31)
    (hfuel : 2 ^ 32 ≤ fuel) (hashes : List (BitVec 64)) (hlen : hashes.length ≤ n) :
    ∃ qf₀ qf, createQfForKeyCount fuel n = some (.ok qf₀) ∧
      qf₀.insertAll fuel hashes = some (replicate hashes.length true, qf) ∧ qf.Storable ∧
      ∀ hash ∈ hashes, qf.mayContain fuel hash = some true := by
  obtain ⟨q, hq, hroom, hcreate, hshape⟩ := createQfForKeyCount_spec hn hn' (show 32 < fuel by omega)
  have hpow : 2 ^ q ≤ 2 ^ 32 := Nat.pow_le_pow_right (by decide) hq
  have hempty : used (2 ^ q) (fun _ => none) = 0 := by simp [used]
  obtain ⟨qf, d, hall, h, hused, hmem, -⟩ :=
    (QuotientFilter.blank_represents hshape).insertAll_spec hq (hpow.trans hfuel)
      hashes (by omega)
  have hblank : (QuotientFilter.blank q qfBitsPerKey).Storable := by
    have hpos : q ≠ 0 := by
      rintro rfl
      omega
    apply QuotientFilter.init_storable (q := q) (r := qfBitsPerKey)
    rw [QuotientFilter.init, if_neg (by rw [qfBitsPerKey]; omega)]
  exact ⟨_, qf, hcreate, hall, hblank.insertAll hall,
    fun hash hhash => h.mayContain_spec hused (hpow.trans hfuel) (hmem hash hhash)⟩

end HedgeDB
