/-
HedgeDB/VarintWords.lean

Variable-length integers in machine words (`src/db/varint.h`).

`Varint` computes with natural numbers.  Here are the same functions as the code has
them, on 64-bit words with masks, shifts and `|`.  In neither decoder do the bits of two
bytes meet, and none is shifted out of the word except by the mask of the tenth byte: so
`|` adds, and the words are the numbers of `Varint` (`tryDecodeVarint_words`).
-/
import HedgeDB.Varint
import Mathlib.Data.Nat.Bitwise

namespace HedgeDB

open List

def valueMask : UInt8 := 0x7f

def continuationBit : UInt8 := 0x80

/-- `b & CONTINUATION_BIT`. -/
def Continues (b : UInt8) : Prop := b &&& continuationBit ≠ 0

instance decidableContinues (b : UInt8) : Decidable (Continues b) :=
  inferInstanceAs (Decidable (_ ≠ _))

/-- The loop of `unsafe_varint`, at most `fuel` bytes with the top bit set. -/
def unsafeVarintWordFrom : ℕ → UInt64 → Bytes
  | 0, value => [value.toUInt8]
  | fuel + 1, value =>
      if value ≥ continuationBit.toUInt64 then
        (value ||| continuationBit.toUInt64).toUInt8 :: unsafeVarintWordFrom fuel (value >>> 7)
      else [value.toUInt8]

/-- `unsafe_varint`. -/
def unsafeVarintWord (value : UInt64) : Bytes := unsafeVarintWordFrom (maxVarintLength64 - 1) value

/-- `val | (bits << shift)`. -/
def orShifted (val : UInt64) (bits : UInt8) (shift : ℕ) : UInt64 :=
  val ||| bits.toUInt64 <<< UInt64.ofNat shift

/-- The loop for short spans. -/
def decodeShortWord : ℕ → UInt64 → ℕ → Bytes → Expected (UInt64 × ℕ)
  | _, _, _, [] => .error { msg := "too few bytes" }
  | shift, val, n, b :: rest =>
      if Continues b then
        decodeShortWord (shift + 7) (orShifted val (b &&& valueMask) shift) (n + 1) rest
      else .ok (orShifted val b shift, n + 1)

/-- The unrolled steps for long spans, of which `n` are done. -/
def decodeLongWord : ℕ → UInt64 → Bytes → Expected (UInt64 × ℕ)
  -- the span has ten bytes, so this line is not reached
  | _, _, [] => .error { msg := "too many bytes" }
  | n, val, b :: rest =>
      if n = maxVarintLength64 - 1 then
        if Continues b then .error { msg := "too many bytes" }
        else .ok (orShifted val (b &&& 0x01) 63, n + 1)
      else if Continues b then decodeLongWord (n + 1) (orShifted val (b &&& valueMask) (7 * n)) rest
      else .ok (orShifted val (b &&& valueMask) (7 * n), n + 1)

/-- `try_decode_varint`. -/
def tryDecodeVarintWord (data : Bytes) : Expected (UInt64 × ℕ) :=
  if data.length ≥ maxVarintLength64 then decodeLongWord 0 0 data else decodeShortWord 0 0 0 data

/-! ### Words are numbers -/

theorem continues_iff (b : UInt8) : Continues b ↔ 128 ≤ b.toNat := by
  have hbit : (b &&& continuationBit).toNat = (b.toNat.testBit 7).toNat * 2 ^ 7 := by
    rw [UInt8.toNat_and]
    exact Nat.and_two_pow b.toNat 7
  have hb : b.toNat < 256 := b.toNat_lt
  rw [Continues, Ne, ← UInt8.toNat_inj, hbit, Nat.testBit_eq_decide_div_mod_eq]
  by_cases hge : 128 ≤ b.toNat
  · have hone : b.toNat / 128 % 2 = 1 := by omega
    simp [hone, hge]
  · have hzero : b.toNat / 128 % 2 = 0 := by omega
    simp [hzero, hge]

theorem toNat_and_valueMask (b : UInt8) : (b &&& valueMask).toNat = b.toNat % 128 := by
  rw [UInt8.toNat_and]
  exact Nat.and_two_pow_sub_one_eq_mod b.toNat 7

theorem toNat_and_one (b : UInt8) : (b &&& 0x01).toNat = b.toNat % 2 := by
  rw [UInt8.toNat_and]
  exact Nat.and_two_pow_sub_one_eq_mod b.toNat 1

theorem toNat_or_continuationBit (b : UInt8) : (b ||| continuationBit).toNat = b.toNat % 128 + 128 := by
  have hb : b.toNat < 256 := b.toNat_lt
  have hlow : b.toNat % 128 ||| 2 ^ 7 = b.toNat % 128 + 128 := by
    have hadd := Nat.two_pow_add_eq_or_of_lt (i := 7) (Nat.mod_lt b.toNat (by decide)) 1
    rw [Nat.mul_one] at hadd
    rw [Nat.or_comm, ← hadd, Nat.add_comm]
  rw [UInt8.toNat_or]
  show b.toNat ||| 2 ^ 7 = _
  by_cases hge : 128 ≤ b.toNat
  · -- the bit is set already
    have hsplit : b.toNat = b.toNat % 128 ||| 2 ^ 7 := by omega
    calc b.toNat ||| 2 ^ 7 = (b.toNat % 128 ||| 2 ^ 7) ||| 2 ^ 7 := by rw [← hsplit]
      _ = b.toNat % 128 ||| 2 ^ 7 := by rw [Nat.or_assoc, Nat.or_self]
      _ = b.toNat % 128 + 128 := hlow
  · rw [Nat.mod_eq_of_lt (Nat.lt_of_not_le hge)] at hlow ⊢
    exact hlow

variable {val : UInt64}

theorem toNat_orShifted {shift : ℕ} (bits : UInt8) (hshift : shift < 64)
    (hval : val.toNat < 2 ^ shift) (hfits : bits.toNat * 2 ^ shift < 2 ^ 64) :
    (orShifted val bits shift).toNat = val.toNat + bits.toNat * 2 ^ shift := by
  have hword : (UInt64.ofNat shift).toNat % 64 = shift := by
    rw [UInt64.toNat_ofNat']
    omega
  have hmoved : (bits.toUInt64 <<< UInt64.ofNat shift).toNat = 2 ^ shift * bits.toNat := by
    rw [UInt64.toNat_shiftLeft, UInt8.toNat_toUInt64, hword, Nat.shiftLeft_eq,
      Nat.mod_eq_of_lt hfits, Nat.mul_comm]
  calc (orShifted val bits shift).toNat
      = val.toNat ||| 2 ^ shift * bits.toNat := by rw [orShifted, UInt64.toNat_or, hmoved]
    _ = 2 ^ shift * bits.toNat + val.toNat := by
        rw [Nat.or_comm, Nat.two_pow_add_eq_or_of_lt hval]
    _ = val.toNat + bits.toNat * 2 ^ shift := by ring

variable {n : ℕ}

theorem add_bits_lt {val bits : ℕ} (hval : val < 2 ^ (7 * n)) (hbits : bits < 128) :
    val + bits * 2 ^ (7 * n) < 2 ^ (7 * (n + 1)) := by
  calc val + bits * 2 ^ (7 * n)
      < 2 ^ (7 * n) + bits * 2 ^ (7 * n) := Nat.add_lt_add_right hval _
    _ = (bits + 1) * 2 ^ (7 * n) := by ring
    _ ≤ 128 * 2 ^ (7 * n) := Nat.mul_le_mul_right _ hbits
    _ = 2 ^ (7 * (n + 1)) := by ring

theorem toNat_orShifted_seven (bits : UInt8) (hn : n < 9) (hval : val.toNat < 2 ^ (7 * n))
    (hbits : bits.toNat < 128) :
    (orShifted val bits (7 * n)).toNat = val.toNat + bits.toNat * 2 ^ (7 * n) := by
  refine toNat_orShifted bits (by omega) hval ?_
  have hlt := add_bits_lt (n := n) (Nat.two_pow_pos _) hbits
  have hpow : 2 ^ (7 * (n + 1)) ≤ 2 ^ 63 := Nat.pow_le_pow_right (by decide) (by omega)
  omega

/-- The value of a result as a number. -/
def wordToNat (r : UInt64 × ℕ) : ℕ × ℕ := (r.1.toNat, r.2)

theorem decodeShort_words (data : Bytes) (hn : n + data.length < 10)
    (hval : val.toNat < 2 ^ (7 * n)) :
    decodeShort (7 * n) val.toNat n data = (decodeShortWord (7 * n) val n data).map wordToNat := by
  induction data generalizing val n with
  | nil => rfl
  | cons b rest ih =>
    rw [length_cons] at hn
    have hmask := toNat_and_valueMask b
    have hlt : b.toNat % 128 < 128 := Nat.mod_lt _ (by decide)
    rw [decodeShort, decodeShortWord]
    by_cases hb : Continues b
    · have hor := toNat_orShifted_seven (b &&& valueMask) (by omega) hval (by omega)
      rw [hmask] at hor
      rw [if_pos hb, if_pos ((continues_iff b).mp hb), ← hor]
      apply ih (n := n + 1) (by omega)
      rw [hor]
      exact add_bits_lt hval hlt
    · have hlast : b.toNat < 128 := Nat.lt_of_not_le (hb ∘ (continues_iff b).mpr)
      rw [if_neg hb, if_neg hlast.not_ge, ← toNat_orShifted_seven b (by omega) hval hlast]
      rfl

theorem decodeLong_words (data : Bytes) (hn : n ≤ 9) (hval : val.toNat < 2 ^ (7 * n)) :
    decodeLong n val.toNat data = (decodeLongWord n val data).map wordToNat := by
  induction data generalizing val n with
  | nil => rfl
  | cons b rest ih =>
    have hmask := toNat_and_valueMask b
    have hlt : b.toNat % 128 < 128 := Nat.mod_lt _ (by decide)
    rw [decodeLong, decodeLongWord]
    by_cases hlast : n = maxVarintLength64 - 1
    · -- of the tenth byte one bit remains
      rw [if_pos hlast, if_pos hlast]
      have hn9 : n = 9 := hlast
      subst hn9
      have hone := toNat_and_one b
      have hor := toNat_orShifted (b &&& 0x01) (by decide) hval (by omega)
      rw [hone] at hor
      by_cases hb : Continues b
      · rw [if_pos hb, if_pos ((continues_iff b).mp hb)]
        rfl
      · rw [if_neg hb, if_neg (hb ∘ (continues_iff b).mpr)]
        show Except.ok (val.toNat + b.toNat % 2 * 2 ^ 63, 10) = _
        rw [← hor]
        rfl
    · rw [if_neg hlast, if_neg hlast]
      have hn8 : n < 9 := lt_of_le_of_ne hn hlast
      have hor := toNat_orShifted_seven (b &&& valueMask) hn8 hval (by omega)
      rw [hmask] at hor
      by_cases hb : Continues b
      · rw [if_pos hb, if_pos ((continues_iff b).mp hb), ← hor]
        apply ih hn8
        rw [hor]
        exact add_bits_lt hval hlt
      · have hsmall : b.toNat < 128 := Nat.lt_of_not_le (hb ∘ (continues_iff b).mpr)
        rw [Nat.mod_eq_of_lt hsmall] at hor
        rw [if_neg hb, if_neg hsmall.not_ge, ← hor]
        rfl

/-- **The decoder in words computes the numbers of `Varint`.** -/
theorem tryDecodeVarint_words (data : Bytes) :
    tryDecodeVarint data = (tryDecodeVarintWord data).map wordToNat := by
  rw [tryDecodeVarint, tryDecodeVarintWord]
  split
  · exact decodeLong_words data (Nat.zero_le 9) (show (0 : UInt64).toNat < 1 from Nat.one_pos)
  · next hshort =>
    refine decodeShort_words data ?_ (show (0 : UInt64).toNat < 2 ^ (7 * 0) from Nat.one_pos)
    rw [maxVarintLength64] at hshort
    omega

theorem unsafeVarintFrom_words (fuel : ℕ) (value : UInt64) :
    unsafeVarintWordFrom fuel value = unsafeVarintFrom fuel value.toNat := by
  induction fuel generalizing value with
  | zero => rfl
  | succ fuel ih =>
    have hcond : value ≥ continuationBit.toUInt64 ↔ value.toNat ≥ 128 := UInt64.le_iff_toNat_le
    rw [unsafeVarintWordFrom, unsafeVarintFrom]
    by_cases hge : value.toNat ≥ 128
    · have hbyte : (value ||| continuationBit.toUInt64).toUInt8 =
          UInt8.ofNat (value.toNat % 128 + 128) := by
        apply UInt8.toNat_inj.mp
        rw [toNat_continued, UInt64.toUInt8_or]
        show (value.toUInt8 ||| continuationBit).toNat = _
        rw [toNat_or_continuationBit, UInt64.toNat_toUInt8]
        omega
      have hshift : (value >>> 7).toNat = value.toNat / 128 := by
        rw [UInt64.toNat_shiftRight]
        exact Nat.shiftRight_eq_div_pow value.toNat 7
      rw [if_pos (hcond.mpr hge), if_pos hge, hbyte, ih, hshift]
    · rw [if_neg (hge ∘ hcond.mp), if_neg hge]
      rfl

/-! ### Both paths -/

theorem decodeLong_unsafeVarintFrom {fuel v : ℕ} (hn : n + fuel = 9)
    (hv : v * 2 ^ (7 * n) < 2 ^ 64) (val : ℕ) (rest : Bytes) :
    decodeLong n val (unsafeVarintFrom fuel v ++ rest) =
      .ok (val + v * 2 ^ (7 * n), n + (unsafeVarintFrom fuel v).length) := by
  induction fuel generalizing v n val with
  | zero =>
    -- the tenth byte: only bit 63 of the value is left
    obtain rfl : n = 9 := hn
    have hbit : v < 2 := by omega
    have hbyte : (UInt8.ofNat v).toNat = v := toNat_last (by omega)
    have hlast : 9 = maxVarintLength64 - 1 := rfl
    rw [unsafeVarintFrom, singleton_append, decodeLong, if_pos hlast, if_neg (by omega), hbyte,
      Nat.mod_eq_of_lt hbit]
    rfl
  | succ fuel ih =>
    have hn9 : ¬n = maxVarintLength64 - 1 := by
      show ¬n = 9
      omega
    rw [unsafeVarintFrom]
    split
    · next hge =>
      have hbyte := toNat_continued v
      have hrest : v / 128 * 2 ^ (7 * (n + 1)) < 2 ^ 64 := by
        refine lt_of_le_of_lt ?_ hv
        rw [← seven_bits v (7 * n)]
        exact Nat.le_add_left _ _
      rw [cons_append, decodeLong, if_neg hn9, if_pos (by omega), ih (by omega) hrest, hbyte,
        length_cons, Nat.add_mod_right, Nat.mod_mod, Nat.add_assoc, Nat.mul_succ,
        seven_bits, Nat.add_assoc, Nat.add_comm 1]
    · next hlt =>
      have hbyte := toNat_last (Nat.not_le.mp hlt)
      rw [singleton_append, decodeLong, if_neg hn9, if_neg (by omega), hbyte]
      rfl

/-- **Decoding undoes encoding.**  Whatever follows, so on both paths. -/
theorem tryDecodeVarintWord_unsafeVarintWord (v : UInt64) (rest : Bytes) :
    (unsafeVarintWord v).length = varintLength v.toNat ∧
      varintLength v.toNat ≤ maxVarintLength64 ∧
      tryDecodeVarintWord (unsafeVarintWord v ++ rest) = .ok (v, varintLength v.toNat) := by
  have hv : v.toNat < 2 ^ 64 := v.toNat_lt
  have hwords : unsafeVarintWord v = unsafeVarint v.toNat := unsafeVarintFrom_words _ v
  have hlen := length_unsafeVarint hv
  refine ⟨hwords ▸ hlen, varintLength_le.mpr (hv.trans (by decide)), ?_⟩
  have hdecode : tryDecodeVarint (unsafeVarintWord v ++ rest) = .ok (v.toNat, varintLength v.toNat) := by
    rw [hwords, ← hlen]
    rcases Nat.lt_or_ge (unsafeVarint v.toNat ++ rest).length maxVarintLength64 with hshort | hlong
    · exact tryDecodeVarint_unsafeVarint hv rest hshort
    · rw [tryDecodeVarint, if_pos hlong]
      have hfits : v.toNat * 2 ^ (7 * 0) < 2 ^ 64 := by simpa using hv
      have hread := decodeLong_unsafeVarintFrom (Nat.zero_add 9) hfits 0 rest
      simpa [unsafeVarint, maxVarintLength64] using hread
  rw [tryDecodeVarint_words] at hdecode
  rcases hword : tryDecodeVarintWord (unsafeVarintWord v ++ rest) with e | r
  · rw [hword] at hdecode
    cases hdecode
  · rw [hword] at hdecode
    obtain ⟨hval, hread⟩ := Prod.mk.inj (Except.ok.inj hdecode)
    rw [← hread, ← UInt64.toNat_inj.mp hval]

theorem and_valueMask_eq {b : UInt8} (hb : ¬Continues b) : b &&& valueMask = b := by
  apply UInt8.toNat_inj.mp
  rw [toNat_and_valueMask, Nat.mod_eq_of_lt (Nat.lt_of_not_le (hb ∘ (continues_iff b).mpr))]

variable {r : UInt64 × ℕ} {data : Bytes}

theorem decodeLongWord_append (hn : n + data.length < maxVarintLength64)
    (h : decodeShortWord (7 * n) val n data = .ok r) (rest : Bytes) :
    decodeLongWord n val (data ++ rest) = .ok r := by
  induction data generalizing val n with
  | nil => cases h
  | cons b data ih =>
    rw [length_cons] at hn
    have hn9 : ¬n = maxVarintLength64 - 1 := by omega
    rw [decodeShortWord] at h
    rw [cons_append, decodeLongWord, if_neg hn9]
    by_cases hb : Continues b
    · rw [if_pos hb] at h ⊢
      exact ih (by omega) h
    · rw [if_neg hb] at h ⊢
      rw [and_valueMask_eq hb, h]

/-- The bytes up to the first one without continuation bit. -/
def FirstLast (data : Bytes) (len : ℕ) : Prop :=
  ∃ init last rest, data = init ++ last :: rest ∧ len = init.length + 1 ∧
    (∀ b ∈ init, Continues b) ∧ ¬Continues last

theorem FirstLast.cons {b : UInt8} {data : Bytes} {len : ℕ} (hb : Continues b)
    (h : FirstLast data len) : FirstLast (b :: data) (len + 1) := by
  obtain ⟨init, last, rest, rfl, rfl, hinit, hlast⟩ := h
  refine ⟨b :: init, last, rest, rfl, rfl, ?_, hlast⟩
  exact forall_mem_cons.mpr ⟨hb, hinit⟩

theorem firstLast_head {b : UInt8} (hb : ¬Continues b) (data : Bytes) : FirstLast (b :: data) 1 :=
  ⟨[], b, data, rfl, rfl, by simp, hb⟩

theorem decodeShortWord_firstLast {shift : ℕ} (h : decodeShortWord shift val n data = .ok r) :
    ∃ len, r.2 = n + len ∧ FirstLast data len := by
  induction data generalizing shift val n with
  | nil => cases h
  | cons b data ih =>
    rw [decodeShortWord] at h
    by_cases hb : Continues b
    · rw [if_pos hb] at h
      obtain ⟨len, hlen, hfirst⟩ := ih h
      exact ⟨len + 1, by omega, hfirst.cons hb⟩
    · rw [if_neg hb] at h
      cases h
      exact ⟨1, rfl, firstLast_head hb data⟩

theorem decodeLongWord_firstLast (h : decodeLongWord n val data = .ok r) :
    ∃ len, r.2 = n + len ∧ FirstLast data len := by
  induction data generalizing val n with
  | nil => cases h
  | cons b data ih =>
    rw [decodeLongWord] at h
    by_cases hb : Continues b
    · rw [if_pos hb, if_pos hb] at h
      split at h
      · cases h
      · obtain ⟨len, hlen, hfirst⟩ := ih h
        exact ⟨len + 1, by omega, hfirst.cons hb⟩
    · rw [if_neg hb, if_neg hb] at h
      refine ⟨1, ?_, firstLast_head hb data⟩
      split at h <;> cases h <;> rfl

/-- **The two paths agree** on any bytes, canonical or not: what the loop for short spans
reads, the unrolled steps read when more bytes follow.  On both paths the bytes read are
those up to the first one without continuation bit. -/
theorem tryDecodeVarintWord_paths :
    (∀ (b s : Bytes) (r : UInt64 × ℕ), b.length < maxVarintLength64 →
        (b ++ s).length ≥ maxVarintLength64 → tryDecodeVarintWord b = .ok r →
        tryDecodeVarintWord (b ++ s) = .ok r) ∧
      ∀ (data : Bytes) (val : UInt64) (len : ℕ), tryDecodeVarintWord data = .ok (val, len) →
        len ≤ data.length ∧ FirstLast data len := by
  constructor
  · intro b s r hshort hlong h
    rw [tryDecodeVarintWord, if_neg hshort.not_ge] at h
    rw [tryDecodeVarintWord, if_pos hlong]
    exact decodeLongWord_append (n := 0) (by omega) h s
  · intro data val len h
    have hfirst : FirstLast data len := by
      rw [tryDecodeVarintWord] at h
      split at h
      · obtain ⟨m, hm, hfirst⟩ := decodeLongWord_firstLast h
        obtain rfl : len = m := by omega
        exact hfirst
      · obtain ⟨m, hm, hfirst⟩ := decodeShortWord_firstLast h
        obtain rfl : len = m := by omega
        exact hfirst
    refine ⟨?_, hfirst⟩
    obtain ⟨init, last, rest, rfl, rfl, -, -⟩ := hfirst
    simp

/-- A number with two redundant groups of zeros. -/
theorem tryDecodeVarintWord_paths_redundant :
    tryDecodeVarintWord ([0x85, 0x80, 0x80, 0x00] ++ replicate 7 0xff) = .ok (5, 4) :=
  tryDecodeVarintWord_paths.1 _ _ _ (by decide) (by decide) rfl

end HedgeDB
