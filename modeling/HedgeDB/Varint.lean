/-
HedgeDB/Varint.lean

Variable-length integers (`src/db/varint.h`).

Seven bits per byte, least significant first; every byte but the last has its
top bit set.  `tryDecodeVarint` has two loops: one for spans of at least ten
bytes, which does not check for their end, and one for shorter spans.  Both
read back what `unsafeVarint` writes, and what it writes is `varintLength`
bytes long.
-/
import HedgeDB.Types
import Mathlib.Data.Nat.Size
import Mathlib.Tactic.Ring

namespace HedgeDB

open List

def maxVarintLength32 : ℕ := 5
def maxVarintLength64 : ℕ := 10

/-- The loop of `unsafe_varint`, at most `fuel` bytes with the top bit set. -/
def unsafeVarintFrom : ℕ → ℕ → Bytes
  | 0, value => [UInt8.ofNat value]
  | fuel + 1, value =>
      if value ≥ 128 then UInt8.ofNat (value % 128 + 128) :: unsafeVarintFrom fuel (value / 128)
      else [UInt8.ofNat value]

/-- `unsafe_varint` of a 64-bit value: at most ten bytes. -/
def unsafeVarint (value : ℕ) : Bytes := unsafeVarintFrom (maxVarintLength64 - 1) value

def varintLength (value : ℕ) : ℕ :=
  if value = 0 then 1 else (Nat.size value + 6) / 7

/-- The loop for short spans: `shift` bits were read into `val`, from `n` bytes. -/
def decodeShort : ℕ → ℕ → ℕ → Bytes → Expected (ℕ × ℕ)
  | _, _, _, [] => .error { msg := "too few bytes" }
  | shift, val, n, b :: rest =>
      if b.toNat ≥ 128 then decodeShort (shift + 7) (val + b.toNat % 128 * 2 ^ shift) (n + 1) rest
      else .ok (val + b.toNat * 2 ^ shift, n + 1)

/-- The unrolled steps for long spans; of the tenth byte one bit is used. -/
def decodeLong : ℕ → ℕ → Bytes → Expected (ℕ × ℕ)
  | _, _, [] => .error { msg := "too many bytes" }
  | n, val, b :: rest =>
      if n = maxVarintLength64 - 1 then
        if b.toNat ≥ 128 then .error { msg := "too many bytes" }
        else .ok (val + b.toNat % 2 * 2 ^ (7 * n), n + 1)
      else if b.toNat ≥ 128 then decodeLong (n + 1) (val + b.toNat % 128 * 2 ^ (7 * n)) rest
      else .ok (val + b.toNat * 2 ^ (7 * n), n + 1)

/-- `try_decode_varint`: the value and the number of bytes read. -/
def tryDecodeVarint (data : Bytes) : Expected (ℕ × ℕ) :=
  if data.length ≥ maxVarintLength64 then decodeLong 0 0 data else decodeShort 0 0 0 data

/-! ### Round trip -/

theorem toNat_continued (v : ℕ) : (UInt8.ofNat (v % 128 + 128)).toNat = v % 128 + 128 := by
  have hbyte : (UInt8.ofNat (v % 128 + 128)).toNat = (v % 128 + 128) % 256 := UInt8.toNat_ofNat'
  omega

variable {v : ℕ}

theorem toNat_last (hv : v < 128) : (UInt8.ofNat v).toNat = v := by
  have hbyte : (UInt8.ofNat v).toNat = v % 256 := UInt8.toNat_ofNat'
  omega

theorem seven_bits (v shift : ℕ) :
    v % 128 * 2 ^ shift + v / 128 * 2 ^ (shift + 7) = v * 2 ^ shift := by
  have hsplit := Nat.mod_add_div v 128
  calc v % 128 * 2 ^ shift + v / 128 * 2 ^ (shift + 7)
      = (v % 128 + 128 * (v / 128)) * 2 ^ shift := by ring
    _ = v * 2 ^ shift := by rw [hsplit]

theorem decodeShort_unsafeVarintFrom {fuel : ℕ} (hv : v < 2 ^ (7 * (fuel + 1))) (shift val n : ℕ)
    (rest : Bytes) :
    decodeShort shift val n (unsafeVarintFrom fuel v ++ rest) =
      .ok (val + v * 2 ^ shift, n + (unsafeVarintFrom fuel v).length) := by
  induction fuel generalizing v shift val n with
  | zero =>
    have hbyte := toNat_last (v := v) hv
    simp [unsafeVarintFrom, decodeShort, hbyte, Nat.not_le.mpr (show v < 128 from hv)]
  | succ fuel ih =>
    rw [unsafeVarintFrom]
    split
    · next hge =>
      have hdiv : v / 128 < 2 ^ (7 * (fuel + 1)) := by
        refine Nat.div_lt_of_lt_mul (hv.trans_eq ?_)
        ring
      have hbyte := toNat_continued v
      rw [cons_append, decodeShort, if_pos (by omega), ih hdiv, hbyte, length_cons,
        Nat.add_mod_right, Nat.mod_mod, Nat.add_assoc, seven_bits, Nat.add_assoc, Nat.add_comm 1]
    · next hlt =>
      have hbyte := toNat_last (Nat.not_le.mp hlt)
      simp [decodeShort, hbyte, hlt]

theorem length_unsafeVarintFrom_le {fuel k : ℕ} (hv : v < 2 ^ (7 * (fuel + 1))) :
    (unsafeVarintFrom fuel v).length ≤ k + 1 ↔ v < 2 ^ (7 * (k + 1)) := by
  induction fuel generalizing v k with
  | zero =>
    have hone : 2 ^ 7 ≤ 2 ^ (7 * (k + 1)) := Nat.pow_le_pow_right (by decide) (by omega)
    exact iff_of_true (Nat.succ_le_succ (Nat.zero_le k)) (hv.trans_le hone)
  | succ fuel ih =>
    rw [unsafeVarintFrom]
    split
    · next hge =>
      have hdiv : v / 128 < 2 ^ (7 * (fuel + 1)) := by
        refine Nat.div_lt_of_lt_mul (hv.trans_eq ?_)
        ring
      rw [length_cons, Nat.add_le_add_iff_right]
      rcases k with - | k
      · have hne : unsafeVarintFrom fuel (v / 128) ≠ [] := by
          rcases fuel with - | fuel
          · exact cons_ne_nil _ _
          · rw [unsafeVarintFrom]
            split <;> exact cons_ne_nil _ _
        refine iff_of_false ?_ (not_lt.mpr hge)
        simpa using hne
      · rw [ih hdiv, Nat.div_lt_iff_lt_mul (by decide)]
        have hpow : 2 ^ (7 * (k + 1)) * 128 = 2 ^ (7 * (k + 1 + 1)) := by ring
        rw [hpow]
    · next hlt =>
      have hone : 2 ^ 7 ≤ 2 ^ (7 * (k + 1)) := Nat.pow_le_pow_right (by decide) (by omega)
      exact iff_of_true (Nat.succ_le_succ (Nat.zero_le k)) ((Nat.not_le.mp hlt).trans_le hone)

theorem varintLength_le {k : ℕ} : varintLength v ≤ k + 1 ↔ v < 2 ^ (7 * (k + 1)) := by
  rw [varintLength, ← Nat.size_le]
  split
  · next h => subst h; simp
  · omega

theorem varintLength_pos (v : ℕ) : 0 < varintLength v := by
  rw [varintLength]
  split
  · exact Nat.one_pos
  · next h =>
    have := Nat.size_pos.mpr (Nat.pos_of_ne_zero h)
    omega

theorem length_unsafeVarint (hv : v < 2 ^ 64) : (unsafeVarint v).length = varintLength v := by
  have hv' : v < 2 ^ (7 * (9 + 1)) := hv.trans (by decide)
  have hiff : ∀ k, (unsafeVarint v).length ≤ k + 1 ↔ varintLength v ≤ k + 1 := fun k =>
    (length_unsafeVarintFrom_le hv').trans varintLength_le.symm
  have hpos : 0 < (unsafeVarint v).length := by
    rw [unsafeVarint, maxVarintLength64, unsafeVarintFrom]
    split <;> exact Nat.succ_pos _
  have hpos' := varintLength_pos v
  have h₁ := (hiff (varintLength v - 1)).mpr (by omega)
  have h₂ := (hiff ((unsafeVarint v).length - 1)).mp (by omega)
  omega

theorem tryDecodeVarint_unsafeVarint (hv : v < 2 ^ 64) (rest : Bytes)
    (hshort : (unsafeVarint v ++ rest).length < maxVarintLength64) :
    tryDecodeVarint (unsafeVarint v ++ rest) = .ok (v, (unsafeVarint v).length) := by
  have hv' : v < 2 ^ (7 * (9 + 1)) := hv.trans (by decide)
  rw [tryDecodeVarint, if_neg (not_le.mpr hshort)]
  have h := decodeShort_unsafeVarintFrom hv' 0 0 0 rest
  simpa [unsafeVarint, maxVarintLength64] using h

end HedgeDB
