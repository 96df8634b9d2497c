/-
HedgeDB/Sst.lean

Sorted string tables and the point lookup through a level tree
(`src/db/sst.h`, `src/db/sst.cc`, `sst_manager::lookup_async`).

An SST is its entries and the footer fields the rest of the program reads.
Each entry carries, besides key and value, the `stamp` of the write it comes
from: its place in the order of all writes.  The file does not store it and no
function below reads it; it is what "newer" means in the recency results.

The filter of an SST is a parameter `probe`.  All the lookup relies on is that
it never hides a written key (`NoFalseNegatives`); then a lookup through a list
of SSTs is the first hit of a list of finite maps (`lookupSsts_eq`).
-/
import HedgeDB.KeyedList
import HedgeDB.Types

namespace HedgeDB

open KeyedList

variable {K : Type*} [LinearOrder K]

/-! ### SSTs -/

/-- One entry of an SST, with the stamp of the write it comes from. -/
structure Record (K : Type*) where
  key : K
  stamp : ℕ
  value : Bytes
  deriving DecidableEq, Repr

/-- An SST: the file-object id, the number in its file name, the footer fields
and the entries. -/
structure Sst (K : Type*) where
  id : ℕ
  indexId : ℕ
  epoch : ℕ
  upperBound : ℕ
  maxSeqNr : ℕ
  entries : List (Record K)
  deriving DecidableEq, Repr

/-- `format_prefix`: directory and file stem of a partition. -/
def formatPrefix (p : ℕ) : String × String :=
  let hex := fun n : ℕ => String.ofList [Nat.digitChar (n / 16 % 16), Nat.digitChar (n % 16)]
  (hex (p / 256), hex (p / 256) ++ hex p)

namespace Sst

/-- The path of the file, below the partitions directory. -/
def path (s : Sst K) : String :=
  let number := toString s.indexId
  let padding := String.ofList (List.replicate (6 - number.length) '0')
  (formatPrefix s.upperBound).1 ++ "/" ++ (formatPrefix s.upperBound).2 ++ "." ++
    padding ++ number

/-- Strictly increasing keys. -/
def Sorted (s : Sst K) : Prop := s.entries.Pairwise fun a b => a.key < b.key

instance (s : Sst K) : Decidable s.Sorted := by
  unfold Sorted; infer_instance

/-- Every stored value decodes. -/
def AllDecodable (s : Sst K) : Prop := ∀ r ∈ s.entries, Decodable r.value

instance (s : Sst K) : Decidable s.AllDecodable := by
  unfold AllDecodable; infer_instance

/-- The entry of the SST under a key. -/
def find (s : Sst K) (k : K) : Option (Record K) := lookup Record.key s.entries k

/-- `sst::lookup_async`: page search and in-page search find exactly the
entries written. -/
def lookupAsync (s : Sst K) (k : K) : Expected Value :=
  match s.find k with
  | none => .error { msg := "", code := .keyNotFound }
  | some r =>
      if r.value = [] then .error { msg := "", code := .keyNotFound }
      else valueFromSpan r.value

end Sst

/-! ### Lookup through a level tree -/

/-- The inner loop of `sst_manager::lookup_async` over SSTs in reading order:
skip what the filter rules out, stop at the first hit, pass on any error that
is not `KEY_NOT_FOUND`. -/
def lookupSsts (probe : Sst K → K → Bool) (k : K) : List (Sst K) → Expected (Option Value)
  | [] => .ok none
  | s :: rest =>
      if probe s k = false then lookupSsts probe k rest
      else
        match s.lookupAsync k with
        | .ok v => .ok (some v)
        | .error e =>
            if e.code ≠ .keyNotFound then
              .error { msg := "An error occurred while reading index at path " ++ s.path ++
                ": " ++ e.msg }
            else lookupSsts probe k rest

/-- The outer loop: levels from the top, each from its newest SST. -/
def lookupLevels (probe : Sst K → K → Bool) (k : K) :
    List (List (Sst K)) → Expected (Option Value)
  | [] => .ok none
  | level :: rest =>
      match lookupSsts probe k level.reverse with
      | .error e => .error e
      | .ok (some v) => .ok (some v)
      | .ok none => lookupLevels probe k rest

/-- `sst_manager::lookup_async` on the level tree of the key's partition. -/
def lookupAsync (probe : Sst K → K → Bool) (levels : List (List (Sst K))) (k : K) :
    Expected Value :=
  match lookupLevels probe k levels with
  | .error e => .error e
  | .ok none => .error { msg := "Key not found", code := .keyNotFound }
  | .ok (some v) => .ok v

/-- The SSTs of a level tree in the order the lookup reads them. -/
def readOrder (levels : List (List (Sst K))) : List (Sst K) :=
  levels.flatMap List.reverse

/-- The filter never hides a written key. -/
def NoFalseNegatives (probe : Sst K → K → Bool) : Prop :=
  ∀ s k, (s.find k).isSome → probe s k = true

theorem lookupSsts_append (probe : Sst K → K → Bool) (k : K) (l l' : List (Sst K)) :
    lookupSsts probe k (l ++ l') =
      match lookupSsts probe k l with
      | .error e => .error e
      | .ok (some v) => .ok (some v)
      | .ok none => lookupSsts probe k l' := by
  induction l with
  | nil => rfl
  | cons s l ih =>
    simp only [List.cons_append, lookupSsts]
    split
    · exact ih
    · rcases s.lookupAsync k with e | v
      · dsimp only
        split
        · rfl
        · exact ih
      · rfl

theorem lookupLevels_eq (probe : Sst K → K → Bool) (k : K) (levels : List (List (Sst K))) :
    lookupLevels probe k levels = lookupSsts probe k (readOrder levels) := by
  induction levels with
  | nil => rfl
  | cons level rest ih =>
    rw [lookupLevels, readOrder, List.flatMap_cons, lookupSsts_append, ih]
    rfl

/-- The value a found record decodes to; only used on decodable records. -/
def Record.decode (r : Record K) : Value :=
  match valueFromSpan r.value with
  | .ok v => v
  | .error _ => .tombstone

omit [LinearOrder K] in
theorem Record.decode_eq {r : Record K} (h : Decodable r.value) :
    valueFromSpan r.value = .ok r.decode := by
  obtain ⟨v, hv⟩ := h
  simp [Record.decode, hv]

theorem lookupSsts_eq {probe : Sst K → K → Bool} (hp : NoFalseNegatives probe) (k : K)
    {l : List (Sst K)} (hd : ∀ s ∈ l, s.AllDecodable) :
    lookupSsts probe k l = .ok ((l.findSome? fun s => s.find k).map Record.decode) := by
  induction l with
  | nil => rfl
  | cons s l ih =>
    have ih' := ih fun s' h => hd s' (List.mem_cons_of_mem s h)
    rw [lookupSsts, List.findSome?_cons]
    rcases hf : s.find k with - | r
    · -- not in this SST: filtered out, or found missing after a false positive
      have hmiss : s.lookupAsync k = .error { msg := "", code := .keyNotFound } := by
        simp [Sst.lookupAsync, hf]
      split
      · exact ih'
      · simpa [hmiss] using ih'
    · have hprobe : probe s k = true := hp s k (by simp [hf])
      have hdec : Decodable r.value := hd s List.mem_cons_self r (lookup_mem hf).1
      have hne : r.value ≠ [] := by
        intro h
        obtain ⟨v, hv⟩ := hdec
        simp [h, valueFromSpan] at hv
      have hhit : s.lookupAsync k = .ok r.decode := by
        simp [Sst.lookupAsync, hf, hne, Record.decode_eq hdec]
      simp [hprobe, hhit]

theorem lookupAsync_eq {probe : Sst K → K → Bool} (hp : NoFalseNegatives probe) (k : K)
    {levels : List (List (Sst K))} (hd : ∀ s ∈ readOrder levels, s.AllDecodable) :
    lookupAsync probe levels k =
      match (readOrder levels).findSome? fun s => s.find k with
      | none => .error { msg := "Key not found", code := .keyNotFound }
      | some r => .ok r.decode := by
  rw [lookupAsync, lookupLevels_eq, lookupSsts_eq hp k hd]
  rcases e : (readOrder levels).findSome? fun s => s.find k with - | r <;> rw [e] <;> rfl

end HedgeDB
