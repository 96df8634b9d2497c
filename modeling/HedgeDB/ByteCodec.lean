/-
HedgeDB/ByteCodec.lean

The order of byte strings, little-endian numbers, and writes into a region of
bytes.

Bytes are ordered by value, and lists of them lexicographically.  A region is a
list; `writeAt` overwrites a stretch of it in place.  What was written can be
read back, and what lies before or behind the stretch is as it was.
-/
import Mathlib.Algebra.Order.Ring.Nat
import Mathlib.Data.List.Basic
import Mathlib.Data.List.Lex
import Mathlib.Tactic.Common

namespace ByteCodec

open List

instance byteLinearOrder : LinearOrder UInt8 where
  le_refl := UInt8.le_refl
  le_trans _ _ _ := UInt8.le_trans
  lt_iff_le_not_ge a b := by
    rw [UInt8.lt_iff_toNat_lt, UInt8.le_iff_toNat_le, UInt8.le_iff_toNat_le]
    omega
  le_antisymm _ _ := UInt8.le_antisymm
  le_total := UInt8.le_total
  toDecidableLE := inferInstance
  toDecidableEq := inferInstance
  toDecidableLT := inferInstance

theorem cons_le_cons {a b : UInt8} {l m : List UInt8} (h : a :: l ≤ b :: m) :
    a < b ∨ a = b ∧ l ≤ m := by
  rcases h.lt_or_eq with hlt | heq
  · rcases hlt with - | hrel | hlex
    · exact .inl hrel
    · exact .inr ⟨rfl, le_of_lt hlex⟩
  · obtain ⟨rfl, rfl⟩ := cons.inj heq
    exact .inr ⟨rfl, le_rfl⟩

/-! ### Little-endian numbers -/

/-- The `n` low bytes of `v`, least significant first. -/
def le : ℕ → ℕ → List UInt8
  | 0, _ => []
  | n + 1, v => UInt8.ofNat v :: le n (v / 256)

/-- The number a list of bytes spells, least significant first. -/
def ofLe : List UInt8 → ℕ
  | [] => 0
  | b :: l => b.toNat + 256 * ofLe l

@[simp] theorem length_le (n v : ℕ) : (le n v).length = n := by
  induction n generalizing v with
  | zero => rfl
  | succ n ih => simp [le, ih]

theorem ofLe_le (n v : ℕ) : ofLe (le n v) = v % 256 ^ n := by
  induction n generalizing v with
  | zero => simp [le, ofLe, Nat.mod_one]
  | succ n ih =>
    have hbyte : (UInt8.ofNat v).toNat = v % 256 := UInt8.toNat_ofNat'
    rw [le, ofLe, ih, hbyte, pow_succ', Nat.mod_mul]

variable {n v : ℕ}

theorem ofLe_le_of_lt (h : v < 256 ^ n) : ofLe (le n v) = v := by
  rw [ofLe_le, Nat.mod_eq_of_lt h]

theorem ofLe_lt (l : List UInt8) : ofLe l < 256 ^ l.length := by
  induction l with
  | nil => exact Nat.zero_lt_one
  | cons b l ih =>
    have hb : b.toNat < 256 := b.toNat_lt
    rw [ofLe, length_cons, pow_succ']
    omega

theorem le_ofLe (l : List UInt8) : le l.length (ofLe l) = l := by
  induction l with
  | nil => rfl
  | cons b l ih =>
    have hb : b.toNat < 256 := b.toNat_lt
    have hdiv : (b.toNat + 256 * ofLe l) / 256 = ofLe l := by omega
    have hbyte : UInt8.ofNat (b.toNat + 256 * ofLe l) = b := by
      apply UInt8.toNat_inj.mp
      rw [UInt8.toNat_ofNat']
      omega
    rw [length_cons, le, ofLe, hdiv, hbyte, ih]

/-! ### Records of numbers -/

/-- The number in the `n` bytes from `off` on. -/
def field (bytes : List UInt8) (off n : ℕ) : ℕ := ofLe ((bytes.drop off).take n)

/-- Numbers behind one another, each with its width. -/
def pack (fields : List (ℕ × ℕ)) : List UInt8 := fields.flatMap fun f => le f.1 f.2

theorem length_pack (fields : List (ℕ × ℕ)) : (pack fields).length = (fields.map Prod.fst).sum := by
  simp [pack, length_flatMap]

theorem field_pack {fields : List (ℕ × ℕ)} {widths : List ℕ}
    (hwidths : fields.map Prod.fst = widths) {i off : ℕ} (hoff : (widths.take i).sum = off)
    (hi : fields[i]? = some (n, v)) (hv : v < 256 ^ n) (rest : List UInt8) :
    field (pack fields ++ rest) off n = v := by
  obtain ⟨hlt, hget⟩ := List.getElem?_eq_some_iff.mp hi
  have hsplit : fields = fields.take i ++ (n, v) :: fields.drop (i + 1) := by
    rw [← hget, ← drop_eq_getElem_cons hlt, take_append_drop]
  have hbytes : pack fields ++ rest =
      pack (fields.take i) ++ (le n v ++ (pack (fields.drop (i + 1)) ++ rest)) := by
    conv_lhs => rw [hsplit]
    simp only [pack, flatMap_append, flatMap_cons, append_assoc]
  have hlen : (pack (fields.take i)).length = off := by
    rw [length_pack, map_take, hwidths, hoff]
  rw [field, hbytes, drop_left' hlen, take_left' (length_le n v), ofLe_le_of_lt hv]

/-- Numbers of one width. -/
def unpackAll (n : ℕ) : ℕ → List UInt8 → List ℕ
  | 0, _ => []
  | count + 1, bytes => ofLe (bytes.take n) :: unpackAll n count (bytes.drop n)

theorem unpackAll_flatMap_le {vs : List ℕ} (hvs : ∀ v ∈ vs, v < 256 ^ n) (rest : List UInt8) :
    unpackAll n vs.length (vs.flatMap (le n) ++ rest) = vs := by
  induction vs with
  | nil => rfl
  | cons v vs ih =>
    obtain ⟨hv, hvs'⟩ := forall_mem_cons.mp hvs
    rw [length_cons, unpackAll, flatMap_cons, append_assoc, take_left' (length_le n v),
      drop_left' (length_le n v), ih hvs', ofLe_le_of_lt hv]

/-! ### Writes -/

/-- Overwrite the bytes from `off` on. -/
def writeAt (page : List UInt8) (off : ℕ) (bytes : List UInt8) : List UInt8 :=
  page.take off ++ bytes ++ page.drop (off + bytes.length)

variable {page bytes : List UInt8} {off : ℕ}

theorem length_writeAt (h : off + bytes.length ≤ page.length) :
    (writeAt page off bytes).length = page.length := by
  simp only [writeAt, length_append, length_take, length_drop]
  omega

theorem writeAt_writeAt {more : List UInt8} (h : off ≤ page.length) :
    writeAt (writeAt page off bytes) (off + bytes.length) more = writeAt page off (bytes ++ more) := by
  have hlen : (page.take off ++ bytes).length = off + bytes.length := by
    rw [length_append, length_take, Nat.min_eq_left h]
  have htake : (writeAt page off bytes).take (off + bytes.length) = page.take off ++ bytes := by
    rw [writeAt]
    exact take_left' hlen
  have hdrop : (writeAt page off bytes).drop (off + bytes.length + more.length) =
      page.drop (off + bytes.length + more.length) := by
    rw [writeAt, ← drop_drop, drop_left' hlen, drop_drop]
  rw [writeAt, htake, hdrop, writeAt, length_append, Nat.add_assoc, append_assoc (page.take off)]

theorem writeAt_end (h : page.length ≤ off + bytes.length) :
    writeAt page off bytes = page.take off ++ bytes := by
  rw [writeAt, drop_of_length_le h, append_nil]

theorem take_writeAt (hn : n ≤ off) (h : off ≤ page.length) :
    (writeAt page off bytes).take n = page.take n := by
  rw [writeAt, append_assoc, take_append_of_le_length (by rw [length_take]; omega),
    take_take, Nat.min_eq_left hn]

theorem drop_writeAt (hn : off + bytes.length ≤ n) (h : off ≤ page.length) :
    (writeAt page off bytes).drop n = page.drop n := by
  have hlen : (page.take off ++ bytes).length = off + bytes.length := by
    rw [length_append, length_take, Nat.min_eq_left h]
  obtain ⟨d, rfl⟩ := Nat.exists_eq_add_of_le hn
  rw [writeAt, ← drop_drop, drop_left' hlen, drop_drop]

theorem field_lt (h : off + n ≤ page.length) : field page off n < 256 ^ n := by
  have hlen : ((page.drop off).take n).length = n := by
    rw [length_take, length_drop]
    omega
  have hlt := ofLe_lt ((page.drop off).take n)
  rwa [hlen] at hlt

theorem field_writeAt_front {o : ℕ} (hn : o + n ≤ off) (h : off ≤ page.length) :
    field (writeAt page off bytes) o n = field page o n := by
  rw [field, field, take_drop, take_drop, take_writeAt hn h]

theorem field_writeAt_behind {o : ℕ} (hn : off + bytes.length ≤ o) (h : off ≤ page.length) :
    field (writeAt page off bytes) o n = field page o n := by
  rw [field, field, drop_writeAt hn h]

theorem field_writeAt_le (h : off ≤ page.length) (hv : v < 256 ^ n) :
    field (writeAt page off (le n v)) off n = v := by
  have hoff : (page.take off).length = off := length_take_of_le h
  rw [field, writeAt, append_assoc, drop_left' hoff, take_left' (length_le n v), ofLe_le_of_lt hv]

end ByteCodec
