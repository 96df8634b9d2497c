/-
HedgeDB/Types.lean

Errors, stored values and their decoding (`include/error.hpp`,
`include/types.h`).

A value is stored behind one type byte.  `put_async` writes
`IN_PLACE_VALUE`, `remove_async` writes a lone `TOMBSTONE` byte, and every
reader goes through `value_from_span`.
-/
import Mathlib.Algebra.Order.Ring.Nat
import Mathlib.Data.List.Basic
import Mathlib.Tactic.Common

namespace HedgeDB

/-! ### Errors -/

inductive Errc
  | genericError
  | valueTableNotEnoughSpace
  | keyNotFound
  | deleted
  | busy
  | bufferFull
  | endOfScan
  | skip
  deriving DecidableEq, Repr

/-- `hedge::error`: a message and a code. -/
structure Error where
  msg : String
  code : Errc := .genericError
  deriving DecidableEq, Repr

abbrev Expected (α : Type*) := Except Error α

universe u in
theorem ok_of_bind {α β : Type u} {x : Expected α} {f : α → Expected β} {b : β}
    (h : (x >>= f) = .ok b) : ∃ a, x = .ok a ∧ f a = .ok b := by
  cases x with
  | error err => cases h
  | ok a => exact ⟨a, rfl, h⟩

theorem ok_bind {α β : Type} (a : α) (f : α → Expected β) : (Except.ok a >>= f) = f a := rfl

/-! ### Stored values -/

abbrev Bytes := List UInt8

def pageSizeInBytes : ℕ := 4096

/-- `static_cast<int32_t>`. -/
def toInt32 (n : ℤ) : ℤ := n.bmod (2 ^ 32)

theorem toInt32_of_lt {n : ℕ} (h : n < 2 ^ 31) : toInt32 n = n := by
  rw [toInt32, Int.bmod_eq_of_le (by omega) (by omega)]

def ceilPageAlign (value : ℕ) : ℕ :=
  (value + pageSizeInBytes - 1) % 2 ^ 64 / pageSizeInBytes * pageSizeInBytes

/-- `hedge::value_type`, the first byte of a stored value. -/
inductive ValueType
  | valuePtr
  | inPlaceValue
  | tombstone
  | undefined
  deriving DecidableEq, Repr

def ValueType.toByte : ValueType → UInt8
  | .valuePtr => 0
  | .inPlaceValue => 1
  | .tombstone => 2
  | .undefined => 255

/-- `hedge::value_t`.  The sixteen bytes of a `value_ptr_t` are kept as they
are: no read path looks into them. -/
inductive Value
  | valuePtr (raw : Bytes)
  | bytes (data : Bytes)
  | tombstone
  deriving DecidableEq, Repr

/-- `sizeof(value_ptr_t)`. -/
def sizeofValuePtr : ℕ := 16

/-- The bytes `put_async` stores for a value of the given type. -/
def encodeValue (type : ValueType) (value : Bytes) : Bytes :=
  type.toByte :: value

/-- `value_from_span`.  The source reads the first byte of an empty span
without a check; stored spans always carry their type byte, and the model
rejects the empty one. -/
def valueFromSpan : Bytes → Expected Value
  | [] => .error { msg := "Invalid value type" }
  | type :: rest =>
      if type = ValueType.valuePtr.toByte then
        if rest.length ≠ sizeofValuePtr then
          .error { msg := "Invalid span size for value_ptr_t" }
        else .ok (.valuePtr rest)
      else if type = ValueType.inPlaceValue.toByte then .ok (.bytes rest)
      else if type = ValueType.tombstone.toByte then
        if rest ≠ [] then .error { msg := "Invalid span size for tombstone_t" }
        else .ok .tombstone
      else .error { msg := "Invalid value type" }

/-- The merge's tombstone test looks at the type byte only. -/
def isTombstone (value : Bytes) : Bool :=
  value.head? = some ValueType.tombstone.toByte

/-- A stored value that `value_from_span` accepts. -/
def Decodable (value : Bytes) : Prop := ∃ v, valueFromSpan value = .ok v

instance (value : Bytes) : Decidable (Decodable value) :=
  match h : valueFromSpan value with
  | .ok v => isTrue ⟨v, h⟩
  | .error _ => isFalse fun ⟨v, hv⟩ => by rw [h] at hv; cases hv

@[simp] theorem valueFromSpan_put (value : Bytes) :
    valueFromSpan (encodeValue .inPlaceValue value) = .ok (.bytes value) := rfl

@[simp] theorem valueFromSpan_remove :
    valueFromSpan (encodeValue .tombstone []) = .ok .tombstone := rfl

theorem isTombstone_iff {value : Bytes} (h : Decodable value) :
    isTombstone value = true ↔ valueFromSpan value = .ok .tombstone := by
  obtain ⟨v, hv⟩ := h
  rcases value with - | ⟨type, rest⟩
  · simp [valueFromSpan] at hv
  · constructor
    · intro ht
      have htype : type = ValueType.tombstone.toByte := by
        simpa [isTombstone] using ht
      subst htype
      rcases rest with - | ⟨b, rest⟩
      · rfl
      · simp [valueFromSpan, ValueType.toByte] at hv
    · intro ht
      have : type = ValueType.tombstone.toByte := by
        simp only [valueFromSpan] at ht
        split_ifs at ht <;> first | assumption | simp at ht
      simp [isTombstone, this]

end HedgeDB
