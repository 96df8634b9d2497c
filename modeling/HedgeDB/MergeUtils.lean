/-
HedgeDB/MergeUtils.lean

The parts of a merge (`src/db/merge/merge_utils.h`, `sst_stream.h`,
`write_buffer.h`).

* `Deduplicator` lags one entry behind its input: an entry is ready once an
  entry of another key follows it.
* `SstStream` reads an SST chunk by chunk into a queue of buffers and hands out
  one entry at a time.
* `MergeWriteBuffer` collects the entries of the output and flushes when a
  block does not fit.

A throw is an error.  How long a chunk is and what fits into a buffer are
properties of the block format, given by `MergeIo`.
-/
import HedgeDB.Sst

namespace HedgeDB

open List

variable {K : Type*} [LinearOrder K]

/-! ### The deduplicator -/

/-- `merge_entry_t`: the entry and the epoch of the SST it was read from. -/
structure MergeEntry (K : Type*) where
  record : Record K
  epoch : ℕ
  deriving DecidableEq, Repr

abbrev MergeEntry.key (e : MergeEntry K) : K := e.record.key

structure Deduplicator (K : Type*) where
  toBeCheckedItem : Option (MergeEntry K) := none
  readyItem : Option (MergeEntry K) := none
  deduplicatedKeys : ℕ := 0
  deriving DecidableEq, Repr

namespace Deduplicator

def push (d : Deduplicator K) (newItem : MergeEntry K) : Deduplicator K :=
  match d.toBeCheckedItem with
  | none => { d with toBeCheckedItem := some newItem }
  | some item =>
      if item.key ≠ newItem.key then
        { d with readyItem := some item, toBeCheckedItem := some newItem }
      else { d with deduplicatedKeys := d.deduplicatedKeys + 1 }

def ready (d : Deduplicator K) : Bool := d.readyItem.isSome

def pop (d : Deduplicator K) : Expected (MergeEntry K × Deduplicator K) :=
  match d.readyItem with
  | some item => .ok (item, { d with readyItem := none })
  | none => .error { msg := "No ready item to pop" }

def forcePop (d : Deduplicator K) : Expected (MergeEntry K × Deduplicator K) :=
  match d.readyItem, d.toBeCheckedItem with
  | some _, _ =>
      .error { msg := "Ready item still present, cannot force_pop last buffered item" }
  | none, none => .error { msg := "No buffered item to force_pop" }
  | none, some item => .ok (item, { d with toBeCheckedItem := none })

end Deduplicator

/-! ### Streams -/

/-- A read-ahead buffer: the entries of its blocks and its size in bytes. -/
structure Chunk (K : Type*) where
  entries : List (Record K)
  bytes : ℕ

/-- What the merge asks of its surroundings: how the reader cuts an SST into
chunks, when a stream counts as running low (`size() / read_ahead_size < 0.35`),
whether an entry fits behind what a write buffer holds, and the encoded size of
a key. -/
structure MergeIo (K : Type*) where
  chunks : Sst K → List (Chunk K)
  low : ℕ → Bool
  fits : List (Record K) → Record K → Bool
  keySize : K → ℕ

/-- `sst_stream`: the chunks not read yet and the buffers being consumed. -/
structure SstStream (K : Type*) where
  index : Sst K
  reader : List (Chunk K)
  buffers : List (Chunk K) := []

namespace SstStream

/-- `refresh`: append the next chunk, if there is one. -/
def refresh (s : SstStream K) : SstStream K :=
  match s.reader with
  | [] => s
  | chunk :: rest => { s with reader := rest, buffers := s.buffers ++ [chunk] }

def front (s : SstStream K) : Option (Record K) :=
  s.buffers.head?.bind fun chunk => chunk.entries.head?

/-- `pop_front`: advance in the current buffer, drop it when consumed. -/
def popFront (s : SstStream K) : SstStream K :=
  match s.buffers with
  | [] => s
  | chunk :: rest =>
      match chunk.entries with
      | _ :: e :: es => { s with buffers := { chunk with entries := e :: es } :: rest }
      | _ => { s with buffers := rest }

def size (s : SstStream K) : ℕ := (s.buffers.map Chunk.bytes).sum

def bufferEmpty (s : SstStream K) : Bool := s.buffers.isEmpty

def isEof (s : SstStream K) : Bool := s.reader.isEmpty && s.bufferEmpty

end SstStream

/-- `refresh_buffers`: one more chunk for every stream that runs low. -/
def refreshBuffers (io : MergeIo K) (streams : List (SstStream K)) : List (SstStream K) :=
  streams.map fun s => if io.low s.size then s.refresh else s

def SstStream.remaining (s : SstStream K) : List (Record K) :=
  (s.buffers ++ s.reader).flatMap Chunk.entries

/-- No chunk is without entries: every block holds at least one. -/
def SstStream.NoEmptyChunk (s : SstStream K) : Prop :=
  ∀ chunk ∈ s.buffers ++ s.reader, chunk.entries ≠ []

namespace SstStream

variable {s : SstStream K}

section

omit [LinearOrder K]

@[simp] theorem refresh_remaining (s : SstStream K) : s.refresh.remaining = s.remaining := by
  rcases e : s.reader with - | ⟨chunk, rest⟩ <;> simp [refresh, remaining, e]

@[simp] theorem refresh_index (s : SstStream K) : s.refresh.index = s.index := by
  rcases e : s.reader with - | ⟨chunk, rest⟩ <;> simp [refresh, e]

theorem NoEmptyChunk.refresh (h : s.NoEmptyChunk) : s.refresh.NoEmptyChunk := by
  rcases e : s.reader with - | ⟨chunk, rest⟩
  · simpa [SstStream.refresh, e] using h
  · simpa [SstStream.refresh, NoEmptyChunk, e] using h

@[simp] theorem popFront_index (s : SstStream K) : s.popFront.index = s.index := by
  unfold popFront
  split
  · rfl
  · split <;> rfl

theorem isEof_iff (h : s.NoEmptyChunk) : s.isEof = true ↔ s.remaining = [] := by
  rw [isEof, bufferEmpty, Bool.and_eq_true, List.isEmpty_iff, List.isEmpty_iff]
  constructor
  · rintro ⟨hr, hb⟩
    simp [remaining, hr, hb]
  · intro hrem
    have hall : s.buffers ++ s.reader = [] := by
      rw [eq_nil_iff_forall_not_mem]
      intro chunk hc
      exact h chunk hc (flatMap_eq_nil_iff.mp hrem chunk hc)
    exact (append_eq_nil_iff.mp hall).symm

theorem front_popFront (h : s.NoEmptyChunk) (hb : s.bufferEmpty = false) :
    ∃ r rs, s.remaining = r :: rs ∧ s.front = some r ∧ s.popFront.remaining = rs ∧
      s.popFront.NoEmptyChunk := by
  obtain ⟨index, reader, buffers⟩ := s
  rcases buffers with - | ⟨⟨entries, bytes⟩, rest⟩
  · simp [bufferEmpty] at hb
  · have hrest : ∀ chunk ∈ rest ++ reader, chunk.entries ≠ [] :=
      fun chunk hc => h chunk (by simpa using Or.inr (mem_append.mp hc))
    rcases entries with - | ⟨r, - | ⟨e, es⟩⟩
    · exact absurd rfl (h ⟨[], bytes⟩ (by simp))
    · exact ⟨r, (rest ++ reader).flatMap Chunk.entries, rfl, rfl, rfl, hrest⟩
    · refine ⟨r, e :: es ++ (rest ++ reader).flatMap Chunk.entries, rfl, rfl, rfl, ?_⟩
      intro chunk hc
      rcases mem_cons.mp hc with rfl | hc'
      · simp
      · exact hrest chunk hc'

end

end SstStream

/-! ### The write buffer -/

/-- `merge_write_buffer` together with the output file: what was flushed, what
is buffered, and the count of indexed entries. -/
structure MergeWriteBuffer (K : Type*) where
  file : List (Record K) := []
  buf : List (Record K) := []
  indexedKv : ℕ := 0

namespace MergeWriteBuffer

/-- `write_item`: none when the buffer is full. -/
def writeItem (io : MergeIo K) (b : MergeWriteBuffer K) (r : Record K) :
    Option (MergeWriteBuffer K) :=
  if io.fits b.buf r then some { b with buf := b.buf ++ [r], indexedKv := b.indexedKv + 1 }
  else none

def flush (b : MergeWriteBuffer K) : MergeWriteBuffer K :=
  { b with file := b.file ++ b.buf, buf := [] }

def flushAndRetry (io : MergeIo K) (b : MergeWriteBuffer K) (r : Record K) :
    Expected (MergeWriteBuffer K) :=
  match b.flush.writeItem io r with
  | some b' => .ok b'
  | none => .error { msg := "Could not flush item of size: k[" ++ toString (io.keySize r.key) ++
      "]v[" ++ toString 0 ++ "]" }

/-- `try_push_kv`, and `flush_and_retry` when it fails. -/
def push (io : MergeIo K) (b : MergeWriteBuffer K) (r : Record K) :
    Expected (MergeWriteBuffer K) :=
  match b.writeItem io r with
  | some b' => .ok b'
  | none => b.flushAndRetry io r

/-- Everything written so far, on disk or not. -/
def contents (b : MergeWriteBuffer K) : List (Record K) := b.file ++ b.buf

omit [LinearOrder K] in
theorem push_eq {io : MergeIo K} (b : MergeWriteBuffer K) {r : Record K}
    (hfits : io.fits [] r = true) :
    ∃ b', b.push io r = .ok b' ∧ b'.contents = b.contents ++ [r] ∧
      b'.indexedKv = b.indexedKv + 1 := by
  by_cases h : io.fits b.buf r = true
  · refine ⟨{ b with buf := b.buf ++ [r], indexedKv := b.indexedKv + 1 }, ?_, ?_, rfl⟩
    · simp [push, writeItem, h]
    · simp [contents]
  · refine ⟨{ b.flush with buf := [r], indexedKv := b.indexedKv + 1 }, ?_, ?_, rfl⟩
    · simp [push, writeItem, h, flushAndRetry, flush, hfits]
    · simp [contents, flush]

end MergeWriteBuffer

end HedgeDB
