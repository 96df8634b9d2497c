/-
HedgeDB/QuotientFilter.lean

The quotient filter (`src/db/qf.cc`).

A hash is cut into a quotient, which is the number of its home slot, and a remainder, which
is stored.  A slot has `r + 3` bits and the slots lie bit by bit in a table of 64-bit words,
so that a slot can begin in one word and end in the next.  `getElem_setElem` says that the
slots are independent of each other all the same.

Above the words a slot is what `CircularRuns` calls a slot (`slotOf`), and the table is
unrolled over the integers (`slots`); the loops that look for a slot stop at the first one
that is right (`findClusterStart_eq`, `advanceWhile_eq`).  What the operations do to the
elements is in `FilterInsert`.

The loops of the source have no bound; here they have one, and give nothing when it is
reached.
-/
import HedgeDB.ByteCodec
import HedgeDB.CircularRuns
import HedgeDB.Types
import Mathlib.Tactic.Positivity
import Mathlib.Tactic.Zify

namespace HedgeDB

open CircularRuns ByteCodec List

/-- `LOW_MASK(n)`. -/
def lowMask (n : ℕ) : BitVec 64 := (1#64 <<< n) - 1#64

structure QuotientFilter where
  qbits : ℕ
  rbits : ℕ
  elemBits : ℕ
  entries : ℕ := 0
  indexMask : BitVec 64
  rmask : BitVec 64
  elemMask : BitVec 64
  maxSize : ℕ
  table : List (BitVec 64)
  deriving DecidableEq

def qfTableSize (q r : ℕ) : ℕ :=
  let bits := 2 ^ q * (r + 3) % 2 ^ 64
  let bytes := bits / 8
  if bits % 8 ≠ 0 then bytes + 1 else bytes

/-! ### Slots -/

def isOccupied (elt : BitVec 64) : Bool := elt &&& 1#64 != 0#64

def setOccupied (elt : BitVec 64) : BitVec 64 := elt ||| 1#64

def clrOccupied (elt : BitVec 64) : BitVec 64 := elt &&& ~~~1#64

def isContinuation (elt : BitVec 64) : Bool := elt &&& 2#64 != 0#64

def setContinuation (elt : BitVec 64) : BitVec 64 := elt ||| 2#64

def isShifted (elt : BitVec 64) : Bool := elt &&& 4#64 != 0#64

def setShifted (elt : BitVec 64) : BitVec 64 := elt ||| 4#64

def getRemainder (elt : BitVec 64) : BitVec 64 := elt >>> 3

def isEmptyElement (elt : BitVec 64) : Bool := elt &&& 7#64 == 0#64

namespace QuotientFilter

variable (qf : QuotientFilter)

/-- `qf_allocated_size`. -/
def allocatedSize : ℕ := ceilPageAlign (qfTableSize qf.qbits qf.rbits)

/-- What `qf_init` sets. -/
def blank (q r : ℕ) : QuotientFilter :=
  { qbits := q
    rbits := r
    elemBits := r + 3
    indexMask := lowMask q
    rmask := lowMask r
    elemMask := lowMask (r + 3)
    maxSize := 2 ^ q
    table := replicate (ceilPageAlign (qfTableSize q r) / 8) 0#64 }

/-- `qf_init`; memory is taken to be there. -/
def init (q r : ℕ) : Option QuotientFilter :=
  if q = 0 ∨ r = 0 ∨ q + r > 64 then none else some (blank q r)

/-- `get_elem`.  `spillbits` is computed in `size_t` and read as an `int`. -/
def getElem (idx : BitVec 64) : BitVec 64 :=
  let bitpos := qf.elemBits * idx.toNat % 2 ^ 64
  let tabpos := bitpos / 64
  let slotpos : ℕ := bitpos % 64
  let spillbits : ℤ := (slotpos + qf.elemBits : ℕ) - 64
  let elt := qf.table.getD tabpos 0#64 >>> slotpos &&& qf.elemMask
  if spillbits > 0 then
    let x := qf.table.getD (tabpos + 1) 0#64 &&& lowMask spillbits.toNat
    elt ||| x <<< (qf.elemBits - spillbits.toNat)
  else elt

def setElem (idx elt : BitVec 64) : QuotientFilter :=
  let bitpos := qf.elemBits * idx.toNat % 2 ^ 64
  let tabpos := bitpos / 64
  let slotpos : ℕ := bitpos % 64
  let spillbits : ℤ := (slotpos + qf.elemBits : ℕ) - 64
  let elt := elt &&& qf.elemMask
  let table := qf.table.set tabpos
    (qf.table.getD tabpos 0#64 &&& ~~~(qf.elemMask <<< slotpos) ||| elt <<< slotpos)
  if spillbits > 0 then
    { qf with
      table := table.set (tabpos + 1)
        (table.getD (tabpos + 1) 0#64 &&& ~~~lowMask spillbits.toNat |||
          elt >>> (qf.elemBits - spillbits.toNat)) }
  else { qf with table }

def incr (idx : BitVec 64) : BitVec 64 := (idx + 1#64) &&& qf.indexMask

def decr (idx : BitVec 64) : BitVec 64 := (idx - 1#64) &&& qf.indexMask

def hashToQuotient (hash : BitVec 64) : BitVec 64 := (hash >>> qf.rbits) &&& qf.indexMask

def hashToRemainder (hash : BitVec 64) : BitVec 64 := hash &&& qf.rmask

/-! The loops of the source stop at a slot; `fuel` bounds their rounds. -/

/-- `while(is_shifted(get_elem(qf, b))) b = decr(qf, b)`. -/
def findClusterStart : ℕ → BitVec 64 → Option (BitVec 64)
  | 0, _ => none
  | fuel + 1, b =>
      if isShifted (qf.getElem b) then findClusterStart fuel (qf.decr b) else some b

/-- `do i = incr(qf, i) while(cond(get_elem(qf, i)))`. -/
def advanceWhile (cond : BitVec 64 → Bool) : ℕ → BitVec 64 → Option (BitVec 64)
  | 0, _ => none
  | fuel + 1, i =>
      if cond (qf.getElem (qf.incr i)) then advanceWhile cond fuel (qf.incr i)
      else some (qf.incr i)

/-- From the start of a run to the slot behind it. -/
def skipRun (fuel : ℕ) (s : BitVec 64) : Option (BitVec 64) := qf.advanceWhile isContinuation fuel s

def nextOccupied (fuel : ℕ) (b : BitVec 64) : Option (BitVec 64) :=
  qf.advanceWhile (fun elt => !isOccupied elt) fuel b

/-- `while(b != fq)`: from run to run, up to the run of `fq`. -/
def findRunFrom (fuel : ℕ) (fq : BitVec 64) : ℕ → BitVec 64 → BitVec 64 → Option (BitVec 64)
  | 0, _, _ => none
  | rounds + 1, b, s =>
      if b ≠ fq then do
        let s ← qf.skipRun fuel s
        let b ← qf.nextOccupied fuel b
        findRunFrom fuel fq rounds b s
      else some s

def findRunIndex (fuel : ℕ) (fq : BitVec 64) : Option (BitVec 64) := do
  let b ← qf.findClusterStart fuel fq
  qf.findRunFrom fuel fq fuel b b

/-- `insert_into`: the loop over the slots from `s` on. -/
def insertInto : ℕ → QuotientFilter → BitVec 64 → BitVec 64 → Option QuotientFilter
  | 0, _, _, _ => none
  | fuel + 1, qf, s, curr =>
      let prev := qf.getElem s
      if isEmptyElement prev then some (qf.setElem s curr)
      else
        let prev := setShifted prev
        -- the bit `occupied` stays with the slot
        if isOccupied prev then
          insertInto fuel (qf.setElem s (setOccupied curr)) (qf.incr s) (clrOccupied prev)
        else insertInto fuel (qf.setElem s curr) (qf.incr s) prev

/-- The loop that looks for `fr` in a run: whether it is there, and where it stops. -/
def scanRun (fr : BitVec 64) : ℕ → BitVec 64 → Option (Bool × BitVec 64)
  | 0, _ => none
  | fuel + 1, s =>
      let rem := getRemainder (qf.getElem s)
      if rem = fr then some (true, s)
      else if rem.toNat > fr.toNat then some (false, s)
      else if isContinuation (qf.getElem (qf.incr s)) then scanRun fr fuel (qf.incr s)
      else some (false, qf.incr s)

/-- The end of `qf_insert`: the shifted bit, and the new slot with those behind it. -/
def insertEntry (fuel : ℕ) (fq s entry : BitVec 64) : Option (Bool × QuotientFilter) := do
  let entry := if s ≠ fq then setShifted entry else entry
  let qf ← insertInto fuel qf s entry
  some (true, { qf with entries := (qf.entries + 1) % 2 ^ 32 })

/-- The part of `qf_insert` for a home that has elements. -/
def insertInRun (fuel : ℕ) (fq fr entry : BitVec 64) : Option (Bool × QuotientFilter) := do
  let start ← qf.findRunIndex fuel fq
  let (found, s) ← qf.scanRun fr fuel start
  if found then some (true, qf)
  else if s = start then
    -- the old start of the run becomes a continuation
    (qf.setElem start (setContinuation (qf.getElem start))).insertEntry fuel fq s entry
  else qf.insertEntry fuel fq s (setContinuation entry)

/-- The part of `qf_insert` for a home that has none. -/
def insertNewRun (fuel : ℕ) (fq entry : BitVec 64) : Option (Bool × QuotientFilter) := do
  let qf := qf.setElem fq (setOccupied (qf.getElem fq))
  let s ← qf.findRunIndex fuel fq
  qf.insertEntry fuel fq s entry

/-- `qf_insert`. -/
def insert (fuel : ℕ) (hash : BitVec 64) : Option (Bool × QuotientFilter) :=
  if qf.entries ≥ qf.maxSize then some (false, qf)
  else
    let fq := qf.hashToQuotient hash
    let fr := qf.hashToRemainder hash
    let tfq := qf.getElem fq
    let entry := fr <<< 3 &&& ~~~7#64
    if isEmptyElement tfq then
      let qf := qf.setElem fq (setOccupied entry)
      some (true, { qf with entries := (qf.entries + 1) % 2 ^ 32 })
    else if isOccupied tfq then qf.insertInRun fuel fq fr entry
    else qf.insertNewRun fuel fq entry

/-- `qf_may_contain`. -/
def mayContain (fuel : ℕ) (hash : BitVec 64) : Option Bool :=
  let fq := qf.hashToQuotient hash
  let fr := qf.hashToRemainder hash
  if isOccupied (qf.getElem fq) then do
    let s ← qf.findRunIndex fuel fq
    let (found, _) ← qf.scanRun fr fuel s
    some found
  else some false

end QuotientFilter

/-! ### The table as bits -/

theorem toNat_lowMask {n : ℕ} (hn : n < 64) : (lowMask n).toNat = 2 ^ n - 1 := by
  have hlt : 2 ^ n < 2 ^ 64 := Nat.pow_lt_pow_right (by decide) hn
  have hpos := Nat.two_pow_pos n
  rw [lowMask, BitVec.toNat_sub, BitVec.toNat_shiftLeft]
  simp only [BitVec.toNat_ofNat, Nat.one_mod, Nat.shiftLeft_eq, one_mul]
  rw [Nat.mod_eq_of_lt hlt]
  omega

theorem getLsbD_lowMask {n : ℕ} (hn : n < 64) (i : ℕ) : (lowMask n).getLsbD i = decide (i < n) := by
  rw [← BitVec.testBit_toNat, toNat_lowMask hn, Nat.testBit_two_pow_sub_one]

/-- Bit `g` of a table of words. -/
def wordBit (table : List (BitVec 64)) (g : ℕ) : Bool := (table.getD (g / 64) 0#64).getLsbD (g % 64)

/-- What `qf_init` sets and nothing changes. -/
structure QuotientFilter.Shape (q r : ℕ) (qf : QuotientFilter) : Prop where
  qbits : qf.qbits = q
  rbits : qf.rbits = r
  elemBits : qf.elemBits = r + 3
  indexMask : qf.indexMask = lowMask q
  rmask : qf.rmask = lowMask r
  elemMask : qf.elemMask = lowMask (r + 3)
  maxSize : qf.maxSize = 2 ^ q
  qbits_lt : q < 64
  elemBits_lt : r + 3 < 64
  bits_lt : (r + 3) * 2 ^ q < 2 ^ 64
  length : qf.table.length = ceilPageAlign (qfTableSize q r) / 8

variable {qf : QuotientFilter} {q r : ℕ}

theorem QuotientFilter.Shape.room (h : qf.Shape q r) :
    (r + 3) * 2 ^ q ≤ qf.table.length * 64 := by
  have hbits := h.bits_lt
  have hsize : (r + 3) * 2 ^ q ≤ qfTableSize q r * 8 ∧ qfTableSize q r ≤ 2 ^ 61 := by
    rw [qfTableSize, Nat.mul_comm (2 ^ q), Nat.mod_eq_of_lt hbits]
    generalize (r + 3) * 2 ^ q = bits at hbits ⊢
    split <;> omega
  rw [h.length, ceilPageAlign, pageSizeInBytes, Nat.mod_eq_of_lt (by omega)]
  omega

variable {idx : BitVec 64}

theorem QuotientFilter.Shape.getElem_bit (h : qf.Shape q r) (hidx : idx.toNat < 2 ^ q) (j : ℕ) :
    (qf.getElem idx).getLsbD j =
      (decide (j < r + 3) && wordBit qf.table ((r + 3) * idx.toNat + j)) := by
  have heb := h.elemBits_lt
  have hbits : (r + 3) * idx.toNat < 2 ^ 64 :=
    lt_of_le_of_lt (Nat.mul_le_mul_left _ hidx.le) h.bits_lt
  rw [getElem, h.elemBits, h.elemMask, Nat.mod_eq_of_lt hbits]
  generalize (r + 3) * idx.toNat = g
  have hslot : g % 64 < 64 := Nat.mod_lt g (by decide)
  dsimp only
  rw [wordBit]
  split
  · next hspill =>
    have hs : ((((g % 64 + (r + 3) : ℕ) : ℤ) - 64)).toNat = g % 64 + (r + 3) - 64 := by omega
    rw [hs]
    have hw : r + 3 - (g % 64 + (r + 3) - 64) = 64 - g % 64 := by omega
    rw [hw]
    simp only [BitVec.getLsbD_or, BitVec.getLsbD_and, BitVec.getLsbD_ushiftRight,
      BitVec.getLsbD_shiftLeft, getLsbD_lowMask heb,
      getLsbD_lowMask (show g % 64 + (r + 3) - 64 < 64 by omega)]
    by_cases hj : j < r + 3
    · rcases lt_or_ge j (64 - g % 64) with hlow | hhigh
      · have hdiv : (g + j) / 64 = g / 64 := by omega
        have hmod : (g + j) % 64 = g % 64 + j := by omega
        simp [hj, hlow, hdiv, hmod]
      · have hdiv : (g + j) / 64 = g / 64 + 1 := by omega
        have hmod : (g + j) % 64 = j - (64 - g % 64) := by omega
        have hout : 64 ≤ g % 64 + j := by omega
        have hin : j - (64 - g % 64) < g % 64 + (r + 3) - 64 := by omega
        have hj64 : j < 64 := by omega
        have hge : ¬ j < 64 - g % 64 := by omega
        simp [hj, hdiv, hmod, hin, hj64, hge, BitVec.getLsbD_of_ge _ _ hout]
    · have hge : 64 - g % 64 ≤ j := by omega
      have hin : ¬ j - (64 - g % 64) < g % 64 + (r + 3) - 64 := by omega
      simp [hj, hin]
  · next hspill =>
    have hfit : g % 64 + (r + 3) ≤ 64 := by omega
    simp only [BitVec.getLsbD_and, BitVec.getLsbD_ushiftRight, getLsbD_lowMask heb]
    by_cases hj : j < r + 3
    · have hdiv : (g + j) / 64 = g / 64 := by omega
      have hmod : (g + j) % 64 = g % 64 + j := by omega
      simp [hj, hdiv, hmod]
    · simp [hj]

theorem wordBit_set (table : List (BitVec 64)) {a : ℕ} (ha : a < table.length) (w : BitVec 64)
    (g : ℕ) : wordBit (table.set a w) g =
      if g / 64 = a then w.getLsbD (g % 64) else wordBit table g := by
  rw [wordBit, wordBit, getD_eq_getElem?_getD, getElem?_set]
  split
  · next h => rw [if_pos h.symm, Option.getD_some]
  · next h => rw [if_neg (Ne.symm h), getD_eq_getElem?_getD]

variable {i m : ℕ}

theorem getLsbD_replace {k : ℕ} (hm : m < 64) (hi : i < 64) (w elt : BitVec 64) :
    (w &&& ~~~(lowMask m <<< k) ||| (elt &&& lowMask m) <<< k).getLsbD i =
      if k ≤ i ∧ i < k + m then elt.getLsbD (i - k) else w.getLsbD i := by
  simp only [BitVec.getLsbD_or, BitVec.getLsbD_and, BitVec.getLsbD_not, BitVec.getLsbD_shiftLeft,
    getLsbD_lowMask hm, hi]
  by_cases hk : i < k
  · simp [hk, Nat.not_le.mpr hk]
  · by_cases hin : i - k < m
    · have hin' : k ≤ i ∧ i < k + m := by omega
      simp [hk, hin, hin']
    · have hin' : ¬ (k ≤ i ∧ i < k + m) := by omega
      simp [hk, hin, hin']

theorem getLsbD_replace_low {k : ℕ} (hm : m < 64) (hk : k ≤ m) (hi : i < 64) (w elt : BitVec 64) :
    (w &&& ~~~lowMask k ||| (elt &&& lowMask m) >>> (m - k)).getLsbD i =
      if i < k then elt.getLsbD (m - k + i) else w.getLsbD i := by
  simp only [BitVec.getLsbD_or, BitVec.getLsbD_and, BitVec.getLsbD_not, BitVec.getLsbD_ushiftRight,
    getLsbD_lowMask hm, getLsbD_lowMask (hk.trans_lt hm), hi]
  by_cases hik : i < k
  · have hin : m - k + i < m := by omega
    simp [hik, hin]
  · have hin : ¬ m - k + i < m := by omega
    simp [hik, hin]

theorem QuotientFilter.Shape.setElem_bit (h : qf.Shape q r) (hidx : idx.toNat < 2 ^ q)
    (elt : BitVec 64) (g : ℕ) :
    wordBit (qf.setElem idx elt).table g =
      if (r + 3) * idx.toNat ≤ g ∧ g < (r + 3) * idx.toNat + (r + 3) then
        elt.getLsbD (g - (r + 3) * idx.toNat)
      else wordBit qf.table g := by
  have heb := h.elemBits_lt
  have hend : (r + 3) * idx.toNat + (r + 3) ≤ (r + 3) * 2 ^ q := by
    rw [← Nat.mul_succ]
    exact Nat.mul_le_mul_left _ hidx
  have hroom := h.room
  have hbits : (r + 3) * idx.toNat < 2 ^ 64 := by
    have := h.bits_lt
    omega
  rw [setElem, h.elemBits, h.elemMask, Nat.mod_eq_of_lt hbits]
  generalize (r + 3) * idx.toNat = b at *
  have hslot : b % 64 < 64 := Nat.mod_lt b (by decide)
  have hmod : g % 64 < 64 := Nat.mod_lt g (by decide)
  have htab : b / 64 < qf.table.length := by omega
  split
  · next hspill =>
    have hs : ((((b % 64 + (r + 3) : ℕ) : ℤ) - 64)).toNat = b % 64 + (r + 3) - 64 := by omega
    have htab' : b / 64 + 1 < (qf.table.set (b / 64)
        (qf.table.getD (b / 64) 0#64 &&& ~~~(lowMask (r + 3) <<< (b % 64)) |||
          (elt &&& lowMask (r + 3)) <<< (b % 64))).length := by
      rw [length_set]
      omega
    rw [hs, wordBit_set _ htab', wordBit_set _ htab]
    split
    · next hg =>
      -- the word after
      have hold : ∀ w, (qf.table.set (b / 64) w).getD (b / 64 + 1) 0#64 =
          qf.table.getD (b / 64 + 1) 0#64 := by
        intro w
        rw [getD_eq_getElem?_getD, getElem?_set_ne (by omega), getD_eq_getElem?_getD]
      rw [hold, getLsbD_replace_low heb (by omega) hmod]
      split
      · rw [if_pos (by omega)]
        congr 1
        omega
      · rw [if_neg (by omega), wordBit, hg]
    · split
      · next hg =>
        rw [getLsbD_replace heb hmod]
        split
        · rw [if_pos (by omega)]
          congr 1
          omega
        · rw [if_neg (by omega), wordBit, hg]
      · rw [if_neg (by omega)]
  · next hspill =>
    rw [wordBit_set _ htab]
    split
    · next hg =>
      rw [getLsbD_replace heb hmod]
      split
      · rw [if_pos (by omega)]
        congr 1
        omega
      · rw [if_neg (by omega), wordBit, hg]
    · rw [if_neg (by omega)]

theorem QuotientFilter.setElem_eq (qf : QuotientFilter) (idx elt : BitVec 64) :
    ∃ table, qf.setElem idx elt = { qf with table } ∧ table.length = qf.table.length := by
  rw [setElem]
  split
  · exact ⟨_, rfl, by rw [length_set, length_set]⟩
  · exact ⟨_, rfl, by rw [length_set]⟩

theorem QuotientFilter.Shape.setElem (h : qf.Shape q r) (idx elt : BitVec 64) :
    (qf.setElem idx elt).Shape q r := by
  obtain ⟨table, heq, hlen⟩ := qf.setElem_eq idx elt
  rw [heq]
  exact { h with length := hlen.trans h.length }

theorem QuotientFilter.Shape.getElem_setElem (h : qf.Shape q r) {idx' : BitVec 64}
    (hidx : idx.toNat < 2 ^ q) (hidx' : idx'.toNat < 2 ^ q) (elt : BitVec 64) :
    (qf.setElem idx elt).getElem idx' =
      if idx' = idx then elt &&& lowMask (r + 3) else qf.getElem idx' := by
  have heb := h.elemBits_lt
  apply BitVec.eq_of_getLsbD_eq
  intro j hj
  rw [(h.setElem idx elt).getElem_bit hidx', h.setElem_bit hidx]
  by_cases heq : idx' = idx
  · rw [if_pos heq, heq, BitVec.getLsbD_and, getLsbD_lowMask heb]
    by_cases hjr : j < r + 3
    · rw [if_pos (by omega), Nat.add_sub_cancel_left]
      simp [hjr]
    · simp [hjr]
  · rw [if_neg heq, h.getElem_bit hidx']
    by_cases hjr : j < r + 3
    · rw [if_neg]
      rintro ⟨hge, hlt⟩
      have hne : idx'.toNat ≠ idx.toNat := fun hnat => heq (BitVec.eq_of_toNat_eq hnat)
      rcases lt_or_gt_of_ne hne with hlt' | hgt'
      · have hmul : (r + 3) * (idx'.toNat + 1) ≤ (r + 3) * idx.toNat := Nat.mul_le_mul_left _ hlt'
        rw [Nat.mul_add, Nat.mul_one] at hmul
        omega
      · have hmul : (r + 3) * (idx.toNat + 1) ≤ (r + 3) * idx'.toNat := Nat.mul_le_mul_left _ hgt'
        rw [Nat.mul_add, Nat.mul_one] at hmul
        omega
    · simp [hjr]

/-! ### The bits of a slot -/

def slotOf (elt : BitVec 64) : Slot ℕ :=
  ⟨isOccupied elt, isContinuation elt, isShifted elt, (getRemainder elt).toNat⟩

variable (elt : BitVec 64)

theorem and_twoPow_bne (hi : i < 64) : (elt &&& BitVec.twoPow 64 i != 0#64) = elt.getLsbD i := by
  have hne : BitVec.twoPow 64 i ≠ 0#64 := by
    intro h
    have hbit := congrArg (fun w => w.getLsbD i) h
    simp [hi] at hbit
  rw [BitVec.and_twoPow]
  cases elt.getLsbD i with
  | false => simp
  | true => simpa using hne

theorem isOccupied_eq : isOccupied elt = elt.getLsbD 0 :=
  and_twoPow_bne elt (i := 0) (by decide)

theorem isContinuation_eq : isContinuation elt = elt.getLsbD 1 :=
  and_twoPow_bne elt (i := 1) (by decide)

theorem isShifted_eq : isShifted elt = elt.getLsbD 2 :=
  and_twoPow_bne elt (i := 2) (by decide)

theorem isEmptyElement_eq : isEmptyElement elt = (slotOf elt).isEmpty := by
  have hbits : ∀ j, (7#64).getLsbD j = decide (j < 3) := getLsbD_lowMask (n := 3) (by decide)
  rw [Slot.isEmpty, slotOf, isOccupied_eq, isContinuation_eq, isShifted_eq, isEmptyElement,
    Bool.eq_iff_iff, beq_iff_eq]
  constructor
  · intro h
    have hbit : ∀ j, j < 3 → elt.getLsbD j = false := by
      intro j hj
      have hbit := congrArg (fun w => w.getLsbD j) h
      simpa [hbits, hj] using hbit
    rw [hbit 0 (by decide), hbit 1 (by decide), hbit 2 (by decide)]
    rfl
  · intro h
    simp only [Bool.and_eq_true, Bool.not_eq_true'] at h
    apply BitVec.eq_of_getLsbD_eq
    intro j _
    rw [BitVec.getLsbD_and, hbits, BitVec.getLsbD_zero]
    by_cases hj : j < 3
    · obtain rfl | rfl | rfl : j = 0 ∨ j = 1 ∨ j = 2 := by omega
      · rw [h.1.1, Bool.false_and]
      · rw [h.1.2, Bool.false_and]
      · rw [h.2, Bool.false_and]
    · simp [hj]

theorem getRemainder_or_twoPow (hi : i < 3) :
    getRemainder (elt ||| BitVec.twoPow 64 i) = getRemainder elt := by
  apply BitVec.eq_of_getLsbD_eq
  intro j _
  have hne : i ≠ 3 + j := by omega
  simp [getRemainder, BitVec.getLsbD_twoPow, hne]

theorem slotOf_setOccupied : slotOf (setOccupied elt) = { slotOf elt with occupied := true } := by
  have hrem := getRemainder_or_twoPow elt (i := 0) (by decide)
  have heq : setOccupied elt = elt ||| BitVec.twoPow 64 0 := rfl
  simp [slotOf, isOccupied_eq, isContinuation_eq, isShifted_eq, heq, hrem]

theorem slotOf_setContinuation :
    slotOf (setContinuation elt) = { slotOf elt with continuation := true } := by
  have hrem := getRemainder_or_twoPow elt (i := 1) (by decide)
  have heq : setContinuation elt = elt ||| BitVec.twoPow 64 1 := rfl
  simp [slotOf, isOccupied_eq, isContinuation_eq, isShifted_eq, heq, hrem]

theorem slotOf_setShifted : slotOf (setShifted elt) = { slotOf elt with shifted := true } := by
  have hrem := getRemainder_or_twoPow elt (i := 2) (by decide)
  have heq : setShifted elt = elt ||| BitVec.twoPow 64 2 := rfl
  simp [slotOf, isOccupied_eq, isContinuation_eq, isShifted_eq, heq, hrem]

theorem slotOf_clrOccupied : slotOf (clrOccupied elt) = { slotOf elt with occupied := false } := by
  have heq : clrOccupied elt = elt &&& ~~~BitVec.twoPow 64 0 := rfl
  have hrem : getRemainder (clrOccupied elt) = getRemainder elt := by
    apply BitVec.eq_of_getLsbD_eq
    intro j hj
    by_cases hlt : 3 + j < 64
    · simp [getRemainder, heq, hlt]
    · simp [getRemainder, heq, BitVec.getLsbD_of_ge elt (3 + j) (by omega)]
  simp [slotOf, isOccupied_eq, isContinuation_eq, isShifted_eq, hrem]
  simp [heq]

/-- An element fits its slot. -/
def Narrow (r : ℕ) (elt : BitVec 64) : Prop := ∀ j, r + 3 ≤ j → elt.getLsbD j = false

variable {elt : BitVec 64}

theorem Narrow.and_lowMask (h : Narrow r elt) (hr : r + 3 < 64) :
    elt &&& lowMask (r + 3) = elt := by
  apply BitVec.eq_of_getLsbD_eq
  intro j _
  rw [BitVec.getLsbD_and, getLsbD_lowMask hr]
  by_cases hj : j < r + 3
  · simp [hj]
  · simp [hj, h j (by omega)]

theorem Narrow.or_twoPow (h : Narrow r elt) (hi : i < 3) :
    Narrow r (elt ||| BitVec.twoPow 64 i) := by
  intro j hj
  have hne : i ≠ j := by omega
  simp [h j hj, BitVec.getLsbD_twoPow, hne]

theorem Narrow.setOccupied (h : Narrow r elt) : Narrow r (setOccupied elt) :=
  h.or_twoPow (i := 0) (by decide)

theorem Narrow.setContinuation (h : Narrow r elt) : Narrow r (setContinuation elt) :=
  h.or_twoPow (i := 1) (by decide)

theorem Narrow.setShifted (h : Narrow r elt) : Narrow r (setShifted elt) :=
  h.or_twoPow (i := 2) (by decide)

theorem Narrow.clrOccupied (h : Narrow r elt) : Narrow r (clrOccupied elt) := by
  intro j hj
  rw [HedgeDB.clrOccupied, BitVec.getLsbD_and, h j hj, Bool.false_and]

theorem QuotientFilter.Shape.narrow_getElem (h : qf.Shape q r) (hidx : idx.toNat < 2 ^ q) :
    Narrow r (qf.getElem idx) := by
  intro j hj
  rw [h.getElem_bit hidx, decide_eq_false (by omega), Bool.false_and]

theorem slotOf_entry {fr : BitVec 64} (hr : r + 3 < 64) (hfr : ∀ j, r ≤ j → fr.getLsbD j = false) :
    slotOf (fr <<< 3 &&& ~~~7#64) = ⟨false, false, false, fr.toNat⟩ ∧
      Narrow r (fr <<< 3 &&& ~~~7#64) := by
  have hbits : ∀ j, (7#64).getLsbD j = decide (j < 3) := getLsbD_lowMask (n := 3) (by decide)
  have hlow : ∀ j, j < 3 → (fr <<< 3 &&& ~~~7#64).getLsbD j = false := by
    intro j hj
    simp [hj]
  have hrem : getRemainder (fr <<< 3 &&& ~~~7#64) = fr := by
    apply BitVec.eq_of_getLsbD_eq
    intro j hj
    by_cases hlt : j < r
    · have hin : 3 + j < 64 := by omega
      rw [getRemainder, BitVec.getLsbD_ushiftRight, BitVec.getLsbD_and, BitVec.getLsbD_shiftLeft,
        BitVec.getLsbD_not, hbits, decide_eq_true hin, decide_eq_false (show ¬ 3 + j < 3 by omega),
        Nat.add_sub_cancel_left]
      simp
    · simp [getRemainder, hfr j (by omega)]
  refine ⟨?_, fun j hj => ?_⟩
  · rw [slotOf, isOccupied_eq, isContinuation_eq, isShifted_eq, hlow 0 (by decide),
      hlow 1 (by decide), hlow 2 (by decide), hrem]
  · simp [hfr (j - 3) (by omega)]

/-! ### Positions -/

def slotIndex (q : ℕ) (p : ℤ) : BitVec 64 := BitVec.ofInt 64 (p % 2 ^ q)

theorem toNat_slotIndex (hq : q < 64) (p : ℤ) : (slotIndex q p).toNat = (p % 2 ^ q).toNat := by
  have hpos : (0 : ℤ) < 2 ^ q := by positivity
  have hlt : (2 : ℤ) ^ q < 2 ^ 64 := pow_lt_pow_right₀ (by decide) hq
  have h₀ := Int.emod_nonneg p hpos.ne'
  have h₁ := Int.emod_lt_of_pos p hpos
  rw [slotIndex, BitVec.toNat_ofInt, Int.emod_eq_of_lt h₀ (by exact_mod_cast h₁.trans hlt)]

theorem slotIndex_lt (hq : q < 64) (p : ℤ) : (slotIndex q p).toNat < 2 ^ q := by
  have hpos : (0 : ℤ) < 2 ^ q := by positivity
  have h₀ := Int.emod_nonneg p hpos.ne'
  have h₁ := Int.emod_lt_of_pos p hpos
  rw [toNat_slotIndex hq]
  zify
  rw [Int.toNat_of_nonneg h₀]
  exact h₁

theorem slotIndex_eq_iff (hq : q < 64) {p p' : ℤ} :
    slotIndex q p = slotIndex q p' ↔ p % 2 ^ q = p' % 2 ^ q := by
  have hpos : (0 : ℤ) < 2 ^ q := by positivity
  have h₀ := Int.emod_nonneg p hpos.ne'
  have h₁ := Int.emod_nonneg p' hpos.ne'
  constructor
  · intro h
    have hnat := congrArg BitVec.toNat h
    rw [toNat_slotIndex hq, toNat_slotIndex hq] at hnat
    omega
  · intro h
    rw [slotIndex, slotIndex, h]

theorem ofInt_and_lowMask (hq : q < 64) (a : ℤ) :
    BitVec.ofInt 64 a &&& lowMask q = slotIndex q a := by
  apply BitVec.eq_of_toNat_eq
  have hdvd : (2 : ℤ) ^ q ∣ 2 ^ 64 := pow_dvd_pow 2 hq.le
  have hmod := Int.emod_emod_of_dvd a hdvd
  have h₀ := Int.emod_nonneg a (show (2 : ℤ) ^ 64 ≠ 0 by decide)
  rw [BitVec.toNat_and, toNat_lowMask hq, Nat.and_two_pow_sub_one_eq_mod, toNat_slotIndex hq,
    BitVec.toNat_ofInt, ← hmod]
  zify
  rw [Int.toNat_of_nonneg h₀, Int.toNat_of_nonneg (Int.emod_nonneg _ (by positivity))]

namespace QuotientFilter

/-- The table, unrolled. -/
def slots (q : ℕ) (qf : QuotientFilter) (p : ℤ) : Slot ℕ := slotOf (qf.getElem (slotIndex q p))

theorem slots_periodic (qf : QuotientFilter) : Function.Periodic (qf.slots q) (2 ^ q) := by
  intro p
  rw [slots, slots, slotIndex, slotIndex, Int.add_emod_right]

namespace Shape

theorem incr (h : qf.Shape q r) (p : ℤ) : qf.incr (slotIndex q p) = slotIndex q (p + 1) := by
  have hadd : slotIndex q p + 1#64 = BitVec.ofInt 64 (p % 2 ^ q + 1) := by
    rw [slotIndex, BitVec.ofInt_add]
    rfl
  rw [QuotientFilter.incr, h.indexMask, hadd, ofInt_and_lowMask h.qbits_lt,
    slotIndex_eq_iff h.qbits_lt, Int.emod_add_emod]

theorem decr (h : qf.Shape q r) (p : ℤ) : qf.decr (slotIndex q p) = slotIndex q (p - 1) := by
  have hsub : slotIndex q p - 1#64 = BitVec.ofInt 64 (p % 2 ^ q - 1) := by
    rw [slotIndex, Int.sub_eq_add_neg, BitVec.ofInt_add, BitVec.sub_eq_add_neg]
    rfl
  rw [QuotientFilter.decr, h.indexMask, hsub, ofInt_and_lowMask h.qbits_lt,
    slotIndex_eq_iff h.qbits_lt, Int.emod_sub_emod]

theorem slots_setElem (h : qf.Shape q r) (helt : Narrow r elt) (a p : ℤ) :
    (qf.setElem (slotIndex q a) elt).slots q p =
      if p % 2 ^ q = a % 2 ^ q then slotOf elt else qf.slots q p := by
  have hq := h.qbits_lt
  rw [slots, h.getElem_setElem (slotIndex_lt hq a) (slotIndex_lt hq p), helt.and_lowMask h.elemBits_lt]
  by_cases heq : p % 2 ^ q = a % 2 ^ q
  · rw [if_pos heq, if_pos ((slotIndex_eq_iff hq).mpr heq)]
  · rw [if_neg heq, if_neg (mt (slotIndex_eq_iff hq).mp heq), slots]

/-! ### The loops that look for a slot -/

theorem findClusterStart_eq (h : qf.Shape q r) {p : ℤ} {fuel : ℕ} (hm : m < fuel)
    (hshift : ∀ i : ℕ, i < m → (qf.slots q (p - i)).shifted = true)
    (hend : (qf.slots q (p - m)).shifted = false) :
    qf.findClusterStart fuel (slotIndex q p) = some (slotIndex q (p - m)) := by
  induction m generalizing p fuel with
  | zero =>
    obtain ⟨fuel, rfl⟩ := Nat.exists_eq_succ_of_ne_zero (Nat.ne_of_gt hm)
    have hend' : isShifted (qf.getElem (slotIndex q p)) = false := by simpa [slots, slotOf] using hend
    rw [findClusterStart, hend']
    simp
  | succ m ih =>
    obtain ⟨fuel, rfl⟩ := Nat.exists_eq_succ_of_ne_zero (Nat.ne_of_gt (Nat.zero_lt_of_lt hm))
    have hfirst : isShifted (qf.getElem (slotIndex q p)) = true := by
      simpa [slots, slotOf] using hshift 0 (Nat.succ_pos m)
    have hsub : ∀ i : ℕ, p - (i + 1 : ℕ) = p - 1 - i := by
      intro i
      push_cast
      omega
    rw [hsub] at hend
    rw [findClusterStart, if_pos hfirst, h.decr, hsub]
    refine ih (Nat.lt_of_succ_lt_succ hm) (fun i hi => ?_) hend
    rw [← hsub]
    exact hshift (i + 1) (Nat.succ_lt_succ hi)

theorem advanceWhile_eq (h : qf.Shape q r) {cond : BitVec 64 → Bool} {s : ℤ} {fuel : ℕ}
    (hm : m < fuel) (hcond : ∀ i : ℕ, i < m → cond (qf.getElem (slotIndex q (s + 1 + i))) = true)
    (hend : cond (qf.getElem (slotIndex q (s + 1 + m))) = false) :
    qf.advanceWhile cond fuel (slotIndex q s) = some (slotIndex q (s + 1 + m)) := by
  induction m generalizing s fuel with
  | zero =>
    obtain ⟨fuel, rfl⟩ := Nat.exists_eq_succ_of_ne_zero (Nat.ne_of_gt hm)
    have hend' : cond (qf.getElem (slotIndex q (s + 1))) = false := by simpa using hend
    rw [advanceWhile, h.incr, hend']
    simp
  | succ m ih =>
    obtain ⟨fuel, rfl⟩ := Nat.exists_eq_succ_of_ne_zero (Nat.ne_of_gt (Nat.zero_lt_of_lt hm))
    have hfirst : cond (qf.getElem (slotIndex q (s + 1))) = true := by
      simpa using hcond 0 (Nat.succ_pos m)
    have hadd : ∀ i : ℕ, s + 1 + (i + 1 : ℕ) = s + 1 + 1 + i := by
      intro i
      push_cast
      omega
    rw [hadd] at hend
    rw [advanceWhile, h.incr, if_pos hfirst, hadd]
    refine ih (Nat.lt_of_succ_lt_succ hm) (fun i hi => ?_) hend
    rw [← hadd]
    exact hcond (i + 1) (Nat.succ_lt_succ hi)

end Shape

end QuotientFilter

end HedgeDB
