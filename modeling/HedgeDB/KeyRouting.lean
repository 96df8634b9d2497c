/-
HedgeDB/KeyRouting.lean

The partition of a key object (`include/key.h`, `extract_prefix` and
`find_partition_prefix_for_key` of `src/utils.h`).

A key of at most 31 bytes is kept in the object itself.  The constructors write the
bytes of the key and its length and leave the rest of the inline buffer as it was;
copying and moving such an object copies all of it.  `extract_prefix` reads two bytes
from the start of the buffer, so for a key of one byte the second is one that the
constructor found there.

`routesByKey_iff` says for which keys the partition is a monotone function of the key.
-/
import HedgeDB.PutStorable

namespace HedgeDB

open List

def maxInlineLength : ℕ := 31

/-- `key`: a short key in the inline buffer, or a long one in its own. -/
inductive KeyObject
  | short (buf : Bytes) (len : ℕ) (hbuf : buf.length = maxInlineLength)
      (hlen : len ≤ maxInlineLength)
  | long (buf : Bytes) (hbuf : maxInlineLength < buf.length)

namespace KeyObject

/-- `key::_init`, in storage that holds `storage`. -/
def init (storage : Bytes) (hstorage : storage.length = maxInlineLength) (bytes : Bytes) :
    KeyObject :=
  if h : bytes.length ≤ maxInlineLength then
    .short (bytes ++ storage.drop bytes.length) bytes.length
      (by rw [length_append, length_drop, hstorage]; omega) h
  else .long bytes (Nat.lt_of_not_le h)

/-- `as_bytes`. -/
def bytes : KeyObject → Bytes
  | .short buf len _ _ => buf.take len
  | .long buf _ => buf

/-- The bytes at `data()`. -/
def data : KeyObject → Bytes
  | .short buf _ _ _ => buf
  | .long buf _ => buf

/-- `_find_matching_partition_for_key`. -/
def partition (numPartitionExponent : ℕ) (k : KeyObject) : ℕ :=
  findMatchingPartitionForKey numPartitionExponent k.data

@[simp]
theorem bytes_init (storage : Bytes) (hstorage : storage.length = maxInlineLength)
    (bytes : Bytes) : (init storage hstorage bytes).bytes = bytes := by
  rw [init]
  split
  · exact take_left
  · rfl

theorem data_eq (k : KeyObject) : ∃ leftover, k.data = k.bytes ++ leftover := by
  cases k with
  | short buf len hbuf hlen => exact ⟨buf.drop len, (take_append_drop len buf).symm⟩
  | long buf hbuf => exact ⟨[], (append_nil buf).symm⟩

theorem data_init_short {storage bytes : Bytes} (hstorage : storage.length = maxInlineLength)
    (h : bytes.length ≤ maxInlineLength) :
    (init storage hstorage bytes).data = bytes ++ storage.drop bytes.length := by
  rw [init, dif_pos h]
  rfl

end KeyObject

/-- The partition depends on the key alone and grows with it, and so the ranges of a
sorted table do not meet a partition twice. -/
structure RoutesByKey (numPartitionExponent : ℕ) (keys : Set Bytes) : Prop where
  same : ∀ k₁ k₂ : KeyObject, k₁.bytes ∈ keys → k₁.bytes = k₂.bytes →
    k₁.partition numPartitionExponent = k₂.partition numPartitionExponent
  monotone : ∀ k₁ k₂ : KeyObject, k₁.bytes ∈ keys → k₂.bytes ∈ keys → k₁.bytes < k₂.bytes →
    k₁.partition numPartitionExponent ≤ k₂.partition numPartitionExponent
  ranges : ∀ es : List (MemtableEntry KeyObject), (∀ a ∈ es, a.key.bytes ∈ keys) →
    (es.Pairwise fun a b => a.key.bytes ≤ b.key.bytes) →
    ((partitionRanges (KeyObject.partition numPartitionExponent) es).map Prod.fst).Nodup

section Routing

variable {e : ℕ}

theorem partition_le (he : e ≤ 16) {k₁ k₂ : KeyObject} (h₁ : 1 ≤ k₁.bytes.length)
    (h₂ : 1 ≤ k₂.bytes.length)
    (hlen : 8 < e → 2 ≤ k₁.bytes.length ∧ 2 ≤ k₂.bytes.length) (h : k₁.bytes ≤ k₂.bytes) :
    k₁.partition e ≤ k₂.partition e := by
  obtain ⟨more₁, hdata₁⟩ := k₁.data_eq
  obtain ⟨more₂, hdata₂⟩ := k₂.data_eq
  show findMatchingPartitionForKey e k₁.data ≤ findMatchingPartitionForKey e k₂.data
  rw [hdata₁, hdata₂]
  exact appendedPartition_le he h₁ h₂ hlen h more₁ more₂

theorem partition_init_ne (he : e ≤ 16) (hexp : 8 < e) (k₀ : UInt8) :
    (KeyObject.init (replicate maxInlineLength 0) length_replicate [k₀]).partition e ≠
      (KeyObject.init (replicate maxInlineLength 255) length_replicate [k₀]).partition e := by
  have hshort : [k₀].length ≤ maxInlineLength := (by decide : 1 ≤ 31)
  rw [KeyObject.partition, KeyObject.partition, KeyObject.data_init_short _ hshort,
    KeyObject.data_init_short _ hshort]
  -- the partition depends on two bytes
  exact findMatchingPartitionForKey_ne he hexp k₀

/-- **Routing by the key alone, exactly.**  The partition of a key object depends on its
key only and grows with it, for all objects of the given keys, if and only if a partition
is not smaller than the keys of one first byte or all keys have two bytes. -/
theorem routesByKey_iff (he : e ≤ 16) {keys : Set Bytes} (hkeys : ∀ key ∈ keys, 1 ≤ key.length) :
    RoutesByKey e keys ↔ e ≤ 8 ∨ ∀ key ∈ keys, 2 ≤ key.length := by
  constructor
  · intro h
    by_contra hbad
    obtain ⟨hexp, hshort⟩ := not_or.mp hbad
    obtain ⟨key, hkey, hone⟩ : ∃ key ∈ keys, ¬ 2 ≤ key.length := by
      simpa using hshort
    obtain ⟨k₀, rfl⟩ : ∃ k₀, key = [k₀] := by
      refine length_eq_one_iff.mp ?_
      have := hkeys key hkey
      omega
    refine partition_init_ne he (Nat.lt_of_not_le hexp) k₀ (h.same _ _ ?_ ?_)
    · rwa [KeyObject.bytes_init]
    · rw [KeyObject.bytes_init, KeyObject.bytes_init]
  · intro hlong
    have hle : ∀ k₁ k₂ : KeyObject, k₁.bytes ∈ keys → k₂.bytes ∈ keys → k₁.bytes ≤ k₂.bytes →
        k₁.partition e ≤ k₂.partition e := by
      intro k₁ k₂ h₁ h₂ h
      refine partition_le he (hkeys _ h₁) (hkeys _ h₂) (fun hexp => ?_) h
      have hall := hlong.resolve_left (Nat.not_le.mpr hexp)
      exact ⟨hall _ h₁, hall _ h₂⟩
    refine ⟨?_, ?_, ?_⟩
    · intro k₁ k₂ h₁ heq
      have h₂ : k₂.bytes ∈ keys := heq ▸ h₁
      exact le_antisymm (hle k₁ k₂ h₁ h₂ heq.le) (hle k₂ k₁ h₂ h₁ heq.ge)
    · exact fun k₁ k₂ h₁ h₂ hlt => hle k₁ k₂ h₁ h₂ hlt.le
    · intro es hmem hsorted
      exact partitionRanges_nodup (hsorted.imp_of_mem fun ha hb hab =>
        hle _ _ (hmem _ ha) (hmem _ hb) hab)

theorem routesByKey_two_bytes : RoutesByKey 16 { key | 2 ≤ key.length } :=
  (routesByKey_iff le_rfl fun _ hkey => Nat.le_of_succ_le hkey).mpr (.inr fun _ hkey => hkey)

/-- The key `a` in an object that was cleared and in one that was not. -/
theorem one_byte_key_two_partitions :
    let k₁ := KeyObject.init (replicate maxInlineLength 0) length_replicate [97]
    let k₂ := KeyObject.init (replicate maxInlineLength 255) length_replicate [97]
    k₁.bytes = [97] ∧ k₁.bytes = k₂.bytes ∧ k₁.partition 9 = 24959 ∧ k₂.partition 9 = 25087 := by
  decide

end Routing

end HedgeDB
