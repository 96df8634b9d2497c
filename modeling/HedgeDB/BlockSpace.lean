/-
HedgeDB/BlockSpace.lean

The space of a block (`block_encoder`, `src/db/block.cc`).

The encoder computes the size of an entry before it writes it, and counts the
trailer at the other end of the page from the beginning.  Whatever keys and values
are pushed onto a reset encoder until it answers `BUFFER_FULL`, the count is the
bytes of the entries and of the trailer (`Accounted`), an entry takes what was
computed for it, a refused one leaves the entries alone (`PushExact`), and the
trailer fits between the last entry and the end of the page (`TrailerFits`).

`Writing` and `BlockWrote` say what one push does; the run over them is here.
-/
import HedgeDB.BlockFind
import HedgeDB.Run

namespace HedgeDB

open ByteCodec List

variable {cfg : BlockConfig} {s : ℕ}

/-- `space_needed`, as `_push_as_delta_key` and `_push_as_restart_key` compute it. -/
def BlockEncoder.spaceNeeded (cfg : BlockConfig) (e : BlockEncoder) (key value : Bytes) : ℕ :=
  if e.kvsCount &&& (cfg.restartGroupSize - 1) ≠ 0 then
    1 + 1 + key.length - sharedPrefixLength e.lastKey key + varintLength value.length + value.length
  else 1 + key.length + varintLength value.length + value.length

/-- A call of `push`.  After `BUFFER_FULL` the block is committed, and callers reset the
encoder before the next one. -/
def pushStep (checksum : Bytes → UInt32) (cfg : BlockConfig) (e : BlockEncoder)
    (kv : Bytes × Bytes) : Option BlockEncoder :=
  if e.committed then none else some (e.push checksum cfg kv.1 kv.2).2

def accepted (checksum : Bytes → UInt32) (cfg : BlockConfig) :
    BlockEncoder → List (Bytes × Bytes) → List (Bytes × Bytes)
  | _, [] => []
  | e, kv :: kvs =>
      match e.push checksum cfg kv.1 kv.2 with
      | (.error _, e') => accepted checksum cfg e' kvs
      | (.ok _, e') => kv :: accepted checksum cfg e' kvs

/-! ### What is claimed of the space -/

/-- `_bytes_written` is the bytes of the entries, two for each restart offset and ten for
their number and the footer, and the entries are on the page. -/
structure Accounted (cfg : BlockConfig) (kvs : List (Bytes × Bytes)) (e : BlockEncoder) : Prop where
  count : e.kvsCount = kvs.length
  length : e.page.length = cfg.blockSizeInBytes
  entries : e.page.take (body cfg 0 [] kvs).length = body cfg 0 [] kvs
  bytesWritten : e.bytesWritten = (body cfg 0 [] kvs).length + 2 * e.offsets.length + 10
  room : e.bytesWritten ≤ cfg.blockSizeInBytes

/-- What `_commit` would write: from the end of the last entry or behind it, up to the end of
the page, and nothing before. -/
structure TrailerFits (checksum : Bytes → UInt32) (cfg : BlockConfig) (e : BlockEncoder) : Prop where
  start : e.head ≤ trailerStart cfg e
  page : ∃ trailer, trailer.length = 2 * e.offsets.length + 10 ∧
    trailerStart cfg e + trailer.length = cfg.blockSizeInBytes ∧
    (e.commit checksum cfg).page = e.page.take (trailerStart cfg e) ++ trailer
  head : (e.commit checksum cfg).head = cfg.blockSizeInBytes

/-- What a call of `push` does to the entries: one that is accepted is written behind the others,
in the space that was computed for it; one that is refused changes none of them. -/
structure PushExact (checksum : Bytes → UInt32) (cfg : BlockConfig) (e : BlockEncoder)
    (key value : Bytes) : Prop where
  accepted : ∀ e', e.push checksum cfg key value = (.ok (), e') →
    e'.head = e.head + e.spaceNeeded cfg key value ∧
      e'.page.take e'.head = e.page.take e.head ++ entryBytes cfg e.kvsCount e.lastKey key value
  refused : ∀ err e', e.push checksum cfg key value = (.error err, e') →
    e'.page.take e.head = e.page.take e.head ∧ e'.kvsCount = e.kvsCount ∧
      e'.offsets = e.offsets ∧ e'.bytesWritten = e.bytesWritten
  full : ∀ e', e.push checksum cfg key value = (.error BlockEncoder.bufferFull, e') →
    e' = e.commit checksum cfg

/-! ### One call -/

section Push

variable {checksum : Bytes → UInt32} {bytes key value : Bytes} {e e' : BlockEncoder}

theorem length_entryBytes (e : BlockEncoder) (key : Bytes) {value : Bytes}
    (hv : value.length < 2 ^ 64) :
    (entryBytes cfg e.kvsCount e.lastKey key value).length = e.spaceNeeded cfg key value := by
  rw [entryBytes, BlockEncoder.spaceNeeded]
  split
  · have hshared := (sharedPrefixLength_le e.lastKey key).2
    rw [length_deltaEntry _ key hv]
    omega
  · rw [length_restartEntry key hv]

theorem push_committed (h : e.push checksum cfg key value = (.ok (), e')) :
    e'.committed = e.committed := by
  rw [BlockEncoder.push] at h
  split at h
  · cases h
  · split at h
    · rw [BlockEncoder.pushAsDeltaKey] at h
      dsimp only at h
      split at h
      · cases h
      · cases h
        rfl
    · rw [BlockEncoder.pushAsRestartKey] at h
      dsimp only at h
      split at h
      · cases h
      · split at h
        · cases h
        · cases h
          rfl

theorem Writing.trailerFits (checksum : Bytes → UInt32) (h : Writing cfg bytes e) :
    TrailerFits checksum cfg e := by
  have hstart := h.encoded.trailerStart_add
  obtain ⟨hpage, hhead⟩ := commit_page checksum h.encoded
  rw [sizeofBlockFooter] at hstart
  refine ⟨h.head ▸ h.encoded.le_trailerStart, ?_, hhead⟩
  rw [committedFront, append_assoc, append_assoc, append_assoc] at hpage
  refine ⟨_, ?_, ?_, hpage⟩ <;>
    · simp only [length_append, length_flatMap_le, length_le, length_footer]
      omega

theorem Writing.pushExact (hs : 1 ≤ s) (hcfg : cfg.restartGroupSize = 2 ^ s)
    (hsize : cfg.blockSizeInBytes = pageSizeInBytes) (h : Writing cfg bytes e)
    (key value : Bytes) : PushExact checksum cfg e key value := by
  refine ⟨?_, ?_, ?_⟩
  · intro e' hpush
    rcases push_spec checksum hs hcfg hsize h value (push_key checksum hpush) with
      ⟨-, hfull⟩ | ⟨e₁, hroom, hok, hw, -, -, -⟩
    · rw [hfull] at hpush
      cases hpush
    · obtain rfl : e₁ = e' := congrArg Prod.snd (hok.symm.trans hpush)
      have hv : value.length < 2 ^ 64 := by
        have hle : value.length ≤ entrySpace cfg e.kvsCount e.lastKey key value := by
          rw [entrySpace]
          split <;> omega
        rw [pageSizeInBytes] at hroom
        omega
      have hhead : e₁.head = e.head + e.spaceNeeded cfg key value := by
        rw [hw.head, h.head, length_append, length_entryBytes e key hv]
      refine ⟨hhead, ?_⟩
      rw [hw.head, hw.written, h.head, h.written]
  · intro err e' hpush
    rcases push_error checksum hs hcfg hsize h hpush with rfl | rfl
    · exact ⟨rfl, rfl, rfl, rfl⟩
    · have henc := (commit_spec checksum h.encoded).1
      obtain ⟨hcount, -, hoffsets, hkeep⟩ := BlockEncoder.commit_frame checksum cfg e
      refine ⟨?_, hcount, hoffsets, hkeep⟩
      rw [h.head, henc.written, h.written]
  · intro e' hpush
    by_cases hkey : key.length > maxKeyLen ∨ key.length = 0
    · -- the other error has a text
      rw [BlockEncoder.push, if_pos hkey] at hpush
      simp [BlockEncoder.bufferFull] at hpush
    · rcases push_spec checksum hs hcfg hsize h value (by omega : 1 ≤ key.length ∧ _) with
        ⟨-, hfull⟩ | ⟨e₁, -, hok, -⟩
      · exact (congrArg Prod.snd (hfull.symm.trans hpush)).symm
      · rw [hok] at hpush
        cases hpush

end Push

/-! ### Runs -/

section Runs

variable {checksum : Bytes → UInt32} {done : List (Bytes × Bytes)} {e e' : BlockEncoder}

theorem BlockWrote.accounted (h : BlockWrote cfg done e) : Accounted cfg done e := by
  have hbytes := h.writing.bytesWritten
  rw [sizeofBlockFooter] at hbytes
  exact ⟨h.count, h.writing.length, h.writing.written, by omega, h.writing.room⟩

theorem BlockWrote.accounted_commit (checksum : Bytes → UInt32) (h : BlockWrote cfg done e) :
    Accounted cfg done (e.commit checksum cfg) := by
  have hbytes := h.writing.bytesWritten
  rw [sizeofBlockFooter] at hbytes
  have henc := (commit_spec checksum h.writing.encoded).1
  obtain ⟨hcount, -, hoffsets, hkeep⟩ := BlockEncoder.commit_frame checksum cfg e
  refine ⟨hcount.trans h.count, henc.length, henc.written, ?_, hkeep ▸ h.writing.room⟩
  rw [hkeep, hoffsets]
  omega

/-- An encoder in front of its next call, or one that has just committed. -/
def Filled (checksum : Bytes → UInt32) (cfg : BlockConfig) (kvs : List (Bytes × Bytes))
    (e : BlockEncoder) : Prop :=
  (e.committed = false ∧ BlockWrote cfg kvs e) ∨
    ∃ e₀, BlockWrote cfg kvs e₀ ∧ e = e₀.commit checksum cfg

theorem Filled.accounted (h : Filled checksum cfg done e) : Accounted cfg done e := by
  rcases h with ⟨-, hw⟩ | ⟨e₀, hw, rfl⟩
  · exact hw.accounted
  · exact hw.accounted_commit checksum

/-- **The run.**  The entries on the page are those that were there and those that have been
accepted since. -/
theorem filled_run (hs : 1 ≤ s) (hcfg : cfg.restartGroupSize = 2 ^ s)
    (hsize : cfg.blockSizeInBytes = pageSizeInBytes) {pushes : List (Bytes × Bytes)}
    (h : Filled checksum cfg done e) (hrun : Run.exec (pushStep checksum cfg) e pushes = some e') :
    Filled checksum cfg (done ++ accepted checksum cfg e pushes) e' := by
  induction pushes generalizing done e with
  | nil =>
    obtain rfl := Option.some.inj hrun
    rwa [accepted, append_nil]
  | cons kv pushes ih =>
    obtain ⟨e₁, hstep, hrest⟩ := Run.exec_cons_inv hrun
    rw [pushStep] at hstep
    split at hstep
    · cases hstep
    · next hopen =>
      obtain rfl := Option.some.inj hstep
      -- the encoder is not committed, so the entries are at its head
      rcases h with ⟨hfalse, hw⟩ | ⟨e₀, -, rfl⟩
      · rw [accepted]
        split
        · next err e₁ hpush =>
          rw [hpush] at hrest
          apply ih _ hrest
          rcases push_error checksum hs hcfg hsize hw.writing hpush with rfl | rfl
          · exact .inl ⟨hfalse, hw⟩
          · exact .inr ⟨e, hw, rfl⟩
        · next e₁ hpush =>
          rw [hpush] at hrest
          have hw' := hw.push checksum hs hcfg hsize hpush
          rw [append_cons]
          exact ih (.inl ⟨(push_committed hpush).trans hfalse, hw'⟩) hrest
      · exact absurd rfl hopen

/-- **The space of a block is exact.**  Keys and values are arbitrary, those of an invalid size
included. -/
theorem block_space_exact (checksum : Bytes → UInt32) (hs : 1 ≤ s)
    (hcfg : cfg.restartGroupSize = 2 ^ s) (hsize : cfg.blockSizeInBytes = pageSizeInBytes)
    {page : Bytes} (hpage : page.length = pageSizeInBytes) {pushes : List (Bytes × Bytes)}
    (hrun : Run.exec (pushStep checksum cfg) (BlockEncoder.reset page) pushes = some e) :
    Accounted cfg (accepted checksum cfg (BlockEncoder.reset page) pushes) e ∧
      (e.committed = false →
        e.head = (body cfg 0 [] (accepted checksum cfg (BlockEncoder.reset page) pushes)).length ∧
          TrailerFits checksum cfg e ∧ ∀ key value, PushExact checksum cfg e key value) := by
  have hreset : Filled checksum cfg [] (BlockEncoder.reset page) :=
    .inl ⟨rfl, wrote_reset hsize hcfg hpage⟩
  have hfilled := filled_run hs hcfg hsize hreset hrun
  rw [nil_append] at hfilled
  refine ⟨hfilled.accounted, fun hopen => ?_⟩
  rcases hfilled with ⟨-, hw⟩ | ⟨e₀, -, rfl⟩
  · exact ⟨hw.writing.head, hw.writing.trailerFits checksum,
      fun key value => hw.writing.pushExact hs hcfg hsize key value⟩
  · cases hopen

/-- Two entries, and one with an empty key between them. -/
theorem block_space_exact_twoEntries : ∃ e,
    Run.exec (pushStep (fun _ => 7) { restartGroupSize := 2 })
        (BlockEncoder.reset (replicate 4096 0)) [([1], [2]), ([], [9]), ([1, 3], [4])] = some e ∧
      e.committed = false ∧ e.bytesWritten = 21 ∧
      Accounted { restartGroupSize := 2 } (accepted (fun _ => 7) { restartGroupSize := 2 }
        (BlockEncoder.reset (replicate 4096 0)) [([1], [2]), ([], [9]), ([1, 3], [4])]) e ∧
      ∀ key value, PushExact (fun _ => 7) { restartGroupSize := 2 } e key value := by
  have hview : (Run.exec (pushStep (fun _ => 7) { restartGroupSize := 2 })
      (BlockEncoder.reset (replicate 4096 0)) [([1], [2]), ([], [9]), ([1, 3], [4])]).map
        (fun e => (e.committed, e.bytesWritten)) = some (false, 21) := by decide +kernel
  obtain ⟨e, hrun, hfields⟩ := Option.map_eq_some_iff.mp hview
  obtain ⟨hopen, hbytes⟩ := Prod.mk.inj hfields
  obtain ⟨haccounted, hpush⟩ := block_space_exact (s := 1) (fun _ => 7) (le_refl 1) rfl rfl
    length_replicate hrun
  exact ⟨e, hrun, hopen, hbytes, haccounted, (hpush hopen).2.2⟩

end Runs

end HedgeDB
