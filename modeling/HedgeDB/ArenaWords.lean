/-
HedgeDB/ArenaWords.lean

The value arena with addresses and 64-bit arithmetic (`src/db/arena_allocator.h`, for
bytes).

`Arena` counts extents and adds natural numbers.  Here an extent is the address that
`posix_memalign` returned, every sum wraps, and `posix_memalign` may fail.  What is assumed
of it is `MemalignOk`: a new extent is aligned, lies in the user half of the address space
and overlaps no extent that the arena has.  Then no sum ever wraps: extents that are apart
cannot be longer together than the space they lie in.

The cursor is below it in the current extent and all other extents are apart from that one:
so no allocation reaches into an earlier one (`ArenaInv`).
-/
import HedgeDB.Arena
import HedgeDB.Regions
import HedgeDB.Run

namespace HedgeDB

open Regions List

def cacheLineSize : ℕ := 64

/-- `hedge::round_up`: for a power of two, clearing the low bits is this division. -/
def roundUpWord (value target : ℕ) : ℕ := (value + target - 1) % 2 ^ 64 / target * target

/-- `arena_allocator<std::byte>`, where `_items_per_extent` is `_extent_size`. -/
structure WordArena where
  budget : ℕ
  extentSize : ℕ
  totalAllocated : ℕ := 0
  extents : List ℕ := []
  currExtent : Option ℕ := none
  currentSlotIndex : ℕ := 0
  deriving DecidableEq, Repr

namespace WordArena

/-- `_allocate_new_extent`; `memory` is what `posix_memalign` gives if it is called. -/
def allocateNewExtent (a : WordArena) (memory : Option ℕ) : WordArena :=
  if (a.totalAllocated + a.extentSize) % 2 ^ 64 > a.budget then { a with currExtent := none }
  else
    match memory with
    | none => { a with currExtent := none }
    | some addr =>
        { a with
          totalAllocated := (a.totalAllocated + a.extentSize) % 2 ^ 64
          extents := a.extents ++ [addr]
          currExtent := some addr }

/-- The members that the constructor sets before it takes the first extent. -/
def empty (budget extentBytesHint : ℕ) : WordArena :=
  { budget, extentSize := max extentBytesHint 4096 }

def make (budget extentBytesHint : ℕ) (memory : Option ℕ) : WordArena :=
  (empty budget extentBytesHint).allocateNewExtent memory

/-- The end of `_allocate_many_impl`. -/
def takeItems (a : WordArena) (nItems : ℕ) : Option ℕ × WordArena :=
  match a.currExtent with
  | none => (none, a)
  | some addr =>
      (some (addr + a.currentSlotIndex),
        { a with currentSlotIndex := (a.currentSlotIndex + nItems) % 2 ^ 64 })

def allocateManyImpl (a : WordArena) (nItems : ℕ) (memory : Option ℕ) : Option ℕ × WordArena :=
  if (a.currentSlotIndex + nItems) % 2 ^ 64 > a.extentSize then
    if nItems > a.extentSize then (none, a)
    else takeItems { a.allocateNewExtent memory with currentSlotIndex := 0 } nItems
  else takeItems a nItems

def allocateMany (a : WordArena) (nItems alignment : ℕ) (memory : Option ℕ) :
    Option ℕ × WordArena :=
  a.allocateManyImpl (roundUpWord nItems alignment) memory

def extent (a : WordArena) (addr : ℕ) : Region := ⟨addr, a.extentSize⟩

/-- `posix_memalign` returns an aligned address, not null, of memory in the user half of the
address space that nobody else has. -/
def MemalignOk (a : WordArena) (memory : Option ℕ) : Prop :=
  ∀ addr ∈ memory, addr ≠ 0 ∧ cacheLineSize ∣ addr ∧ (a.extent addr).stop ≤ 2 ^ 63 ∧
    ∀ e ∈ a.extents, (a.extent e).Apart (a.extent addr)

instance decidableMemalignOk (a : WordArena) (memory : Option ℕ) : Decidable (a.MemalignOk memory) :=
  inferInstanceAs (Decidable (∀ addr ∈ memory, _ ∧ _ ∧ _ ∧ ∀ e ∈ a.extents, _))

end WordArena

/-! ### Calls -/

/-- A call of `allocate_many`, with what `posix_memalign` gives if the call comes to it. -/
structure ArenaCall where
  nItems : ℕ
  memory : Option ℕ
  deriving DecidableEq, Repr

/-- The arena and the regions it has handed out, over their requested lengths. -/
structure ArenaRun where
  arena : WordArena
  ranges : List Region := []
  deriving DecidableEq, Repr

def arenaStep (s : ArenaRun) (c : ArenaCall) : Option ArenaRun :=
  match s.arena.allocateMany c.nItems 16 c.memory with
  | (none, arena) => some { s with arena }
  | (some addr, arena) => some { arena, ranges := s.ranges ++ [⟨addr, c.nItems⟩] }

def ArenaCall.Ok (s : ArenaRun) (c : ArenaCall) : Prop :=
  c.nItems < 2 ^ 63 ∧ s.arena.MemalignOk c.memory

instance decidableArenaCallOk (s : ArenaRun) (c : ArenaCall) : Decidable (c.Ok s) :=
  inferInstanceAs (Decidable (_ ∧ _))

/-! ### Invariant -/

variable {n : ℕ}

namespace WordArena

structure Extents (a : WordArena) : Prop where
  size : 4096 ≤ a.extentSize ∧ a.extentSize < 2 ^ 64
  placed : ∀ e ∈ a.extents, e ≠ 0 ∧ cacheLineSize ∣ e ∧ (a.extent e).stop ≤ 2 ^ 63
  apart : a.extents.Pairwise fun e f => (a.extent e).Apart (a.extent f)
  total : a.totalAllocated = a.extents.length * a.extentSize
  budget : a.totalAllocated ≤ a.budget
  curr : ∀ e, a.currExtent = some e → e ∈ a.extents
  slot : a.currentSlotIndex ≤ a.extentSize
  slotAligned : 16 ∣ a.currentSlotIndex
  noExtent : a.currExtent = none → a.currentSlotIndex = 0

variable {a : WordArena} {memory : Option ℕ}

theorem Extents.total_le (h : a.Extents) : a.extents.length * a.extentSize ≤ 2 ^ 63 := by
  have hsum : ((a.extents.map a.extent).map Region.len).sum ≤ 2 ^ 63 :=
    sum_len_le (pairwise_map.mpr h.apart) (by simpa using fun e he => (h.placed e he).2.2)
  simpa [Function.comp_def, extent] using hsum

theorem Extents.size_le (h : a.Extents) {e : ℕ} (he : e ∈ a.extents) :
    a.extentSize + cacheLineSize ≤ 2 ^ 63 := by
  obtain ⟨hne, haligned, hstop⟩ := h.placed e he
  have hle := Nat.le_of_dvd (Nat.pos_of_ne_zero hne) haligned
  rw [Region.stop, extent] at hstop
  dsimp only at hstop
  omega

theorem Extents.total_lt (h : a.Extents) : a.totalAllocated + a.extentSize < 2 ^ 64 := by
  rw [h.total]
  rcases hext : a.extents with - | ⟨e, rest⟩
  · simpa using h.size.2
  · have hle := h.total_le
    have hsize := h.size_le (hext ▸ mem_cons_self)
    rw [hext] at hle
    rw [cacheLineSize] at hsize
    omega

theorem Extents.allocateNewExtent_cases (h : a.Extents) (memory : Option ℕ) :
    a.allocateNewExtent memory = { a with currExtent := none } ∨
      ∃ addr, memory = some addr ∧ a.totalAllocated + a.extentSize ≤ a.budget ∧
        a.allocateNewExtent memory =
          { a with
            totalAllocated := a.totalAllocated + a.extentSize
            extents := a.extents ++ [addr]
            currExtent := some addr } := by
  unfold allocateNewExtent
  rw [Nat.mod_eq_of_lt h.total_lt]
  split
  · exact .inl rfl
  · next hbudget =>
    rcases memory with - | addr
    · exact .inl rfl
    · exact .inr ⟨addr, rfl, Nat.not_lt.mp hbudget, rfl⟩

theorem allocateNewExtent_config (a : WordArena) (memory : Option ℕ) :
    (a.allocateNewExtent memory).extentSize = a.extentSize ∧
      (a.allocateNewExtent memory).budget = a.budget := by
  unfold allocateNewExtent
  split
  · exact ⟨rfl, rfl⟩
  · split <;> exact ⟨rfl, rfl⟩

theorem budget_takeItems (a : WordArena) (nItems : ℕ) : (a.takeItems nItems).2.budget = a.budget := by
  unfold takeItems
  split <;> rfl

theorem budget_allocateMany (a : WordArena) (nItems alignment : ℕ) (memory : Option ℕ) :
    (a.allocateMany nItems alignment memory).2.budget = a.budget := by
  rw [allocateMany, allocateManyImpl]
  split
  · split
    · rfl
    · rw [budget_takeItems]
      exact (allocateNewExtent_config a memory).2
  · exact budget_takeItems a _

theorem roundUpWord_eq (hn : n < 2 ^ 63) : roundUpWord n 16 = roundUp n 16 := by
  rw [roundUpWord, roundUp, Nat.mod_eq_of_lt (by omega)]

theorem roundUp_spec (n : ℕ) : n ≤ roundUp n 16 ∧ 16 ∣ roundUp n 16 ∧ roundUp n 16 ≤ n + 15 := by
  refine ⟨?_, Dvd.intro_left _ rfl, ?_⟩
  · rw [roundUp]
    omega
  · rw [roundUp]
    omega

theorem Extents.cursor_lt (h : a.Extents) (hn : n ≤ 2 ^ 63) : a.currentSlotIndex + n < 2 ^ 64 := by
  rcases hcurr : a.currExtent with - | e
  · have hzero := h.noExtent hcurr
    omega
  · have hsize := h.size_le (h.curr e hcurr)
    have hslot := h.slot
    rw [cacheLineSize] at hsize
    omega

end WordArena

/-! ### The arena with numbered extents -/

variable {nItems : ℕ}

namespace WordArena

variable {a : WordArena}

/-- Extents by number: the current one is the last. -/
def toArena (a : WordArena) : Arena :=
  { budget := a.budget
    extentSize := a.extentSize
    totalAllocated := a.totalAllocated
    extents := a.extents.length
    currExtent := a.currExtent.map fun _ => a.extents.length - 1
    currentSlotIndex := a.currentSlotIndex }

theorem toArena_allocateNewExtent (h : a.Extents) (addr : ℕ) :
    (a.allocateNewExtent (some addr)).toArena = a.toArena.allocateNewExtent := by
  unfold allocateNewExtent Arena.allocateNewExtent
  rw [Nat.mod_eq_of_lt h.total_lt]
  by_cases hbudget : a.totalAllocated + a.extentSize > a.budget
  · have hbudget' : a.toArena.totalAllocated + a.toArena.extentSize > a.toArena.budget := hbudget
    rw [if_pos hbudget, if_pos hbudget']
    rfl
  · have hbudget' : ¬a.toArena.totalAllocated + a.toArena.extentSize > a.toArena.budget := hbudget
    rw [if_neg hbudget, if_neg hbudget']
    simp [toArena]

theorem toArena_takeItems (hfits : a.currentSlotIndex + nItems < 2 ^ 64) :
    (a.takeItems nItems).2.toArena = (a.toArena.takeItems nItems).2 ∧
      (a.takeItems nItems).1.isSome = (a.toArena.takeItems nItems).1.isSome := by
  rcases hcurr : a.currExtent with - | e
  · have hcurr' : a.toArena.currExtent = none := by simp [toArena, hcurr]
    simp [takeItems, Arena.takeItems, hcurr, hcurr']
  · have hcurr' : a.toArena.currExtent = some (a.extents.length - 1) := by simp [toArena, hcurr]
    simp only [takeItems, Arena.takeItems, hcurr, hcurr', Nat.mod_eq_of_lt hfits]
    exact ⟨by rw [← hcurr']; simp [toArena, hcurr], rfl⟩

/-- **As long as `posix_memalign` gives memory, this is the arena of `Arena`.** -/
theorem toArena_allocateMany (h : a.Extents) (hn : nItems < 2 ^ 63) (addr : ℕ) :
    (a.allocateMany nItems 16 (some addr)).2.toArena = (a.toArena.allocateMany nItems 16).2 ∧
      (a.allocateMany nItems 16 (some addr)).1.isSome =
        (a.toArena.allocateMany nItems 16).1.isSome := by
  obtain ⟨-, hdvd, hup⟩ := roundUp_spec nItems
  have hcursor := h.cursor_lt (n := roundUp nItems 16) (by omega)
  have hsize := h.size.2
  rw [allocateMany, roundUpWord_eq hn, allocateManyImpl, Nat.mod_eq_of_lt hcursor, Arena.allocateMany,
    Arena.allocateManyImpl]
  by_cases hfull : a.currentSlotIndex + roundUp nItems 16 > a.extentSize
  · have hfull' : a.toArena.currentSlotIndex + roundUp nItems 16 > a.toArena.extentSize := hfull
    rw [if_pos hfull, if_pos hfull']
    by_cases hlarge : roundUp nItems 16 > a.extentSize
    · have hlarge' : roundUp nItems 16 > a.toArena.extentSize := hlarge
      rw [if_pos hlarge, if_pos hlarge']
      exact ⟨rfl, rfl⟩
    · have hlarge' : ¬roundUp nItems 16 > a.toArena.extentSize := hlarge
      rw [if_neg hlarge, if_neg hlarge', ← toArena_allocateNewExtent h addr]
      apply toArena_takeItems
      show 0 + _ < _
      omega
  · have hfull' : ¬a.toArena.currentSlotIndex + roundUp nItems 16 > a.toArena.extentSize := hfull
    rw [if_neg hfull, if_neg hfull']
    exact toArena_takeItems hcursor

end WordArena

/-! ### What is handed out -/

/-- The extents are as they should be, and every region handed out lies in one of them: in
the current one below the cursor. -/
structure ArenaInv (s : ArenaRun) : Prop where
  extents : s.arena.Extents
  aligned : ∀ r ∈ s.ranges, 16 ∣ r.start
  within : ∀ r ∈ s.ranges, ∃ e ∈ s.arena.extents, r.Within (s.arena.extent e) ∧
    (s.arena.currExtent = some e → r.stop ≤ e + s.arena.currentSlotIndex)
  apart : s.ranges.Pairwise Region.Apart

namespace ArenaInv

variable {a : WordArena} {ranges : List Region} {memory : Option ℕ}

theorem noExtent (h : ArenaInv ⟨a, ranges⟩) :
    ArenaInv ⟨{ a with currExtent := none, currentSlotIndex := 0 }, ranges⟩ where
  extents :=
    { h.extents with
      curr := by
        intro e he
        cases he
      slot := Nat.zero_le _
      slotAligned := Nat.dvd_zero _
      noExtent := fun _ => rfl }
  aligned := h.aligned
  within := by
    intro r hr
    obtain ⟨e, he, hwithin, -⟩ := h.within r hr
    refine ⟨e, he, hwithin, fun hcurr => ?_⟩
    cases hcurr
  apart := h.apart

theorem newExtent (h : ArenaInv ⟨a, ranges⟩) {addr : ℕ} (hmem : a.MemalignOk (some addr))
    (hbudget : a.totalAllocated + a.extentSize ≤ a.budget) :
    ArenaInv ⟨{ a with
      totalAllocated := a.totalAllocated + a.extentSize
      extents := a.extents ++ [addr]
      currExtent := some addr
      currentSlotIndex := 0 }, ranges⟩ := by
  obtain ⟨hne, haligned, hstop, hapart⟩ := hmem addr rfl
  refine ⟨⟨h.extents.size, ?_, ?_, ?_, hbudget, ?_, Nat.zero_le _, Nat.dvd_zero _, ?_⟩, h.aligned, ?_,
    h.apart⟩
  · intro e he
    rcases mem_append.mp he with he | he
    · exact h.extents.placed e he
    · rw [mem_singleton.mp he]
      exact ⟨hne, haligned, hstop⟩
  · refine pairwise_append.mpr ⟨h.extents.apart, pairwise_singleton _ _, ?_⟩
    intro e he f hf
    rw [mem_singleton.mp hf]
    exact hapart e he
  · show a.totalAllocated + a.extentSize = (a.extents ++ [addr]).length * a.extentSize
    rw [h.extents.total, length_append, length_singleton, Nat.add_mul, Nat.one_mul]
  · intro e he
    cases he
    exact mem_append_right _ (mem_singleton_self _)
  · intro hcurr
    cases hcurr
  · intro r hr
    obtain ⟨e, he, hwithin, -⟩ := h.within r hr
    refine ⟨e, mem_append_left _ he, hwithin, fun hcurr => ?_⟩
    -- the new extent is none of the old ones
    cases hcurr
    have hself := hapart addr he
    have hsize : 4096 ≤ a.extentSize := h.extents.size.1
    simp only [Region.Apart, Region.stop, WordArena.extent, or_self] at hself
    omega

theorem take (h : ArenaInv ⟨a, ranges⟩) {addr : ℕ} (hcurr : a.currExtent = some addr)
    (hn : n ≤ nItems) (hdvd : 16 ∣ nItems) (hfits : a.currentSlotIndex + nItems ≤ a.extentSize) :
    ArenaInv ⟨{ a with currentSlotIndex := a.currentSlotIndex + nItems },
      ranges ++ [⟨addr + a.currentSlotIndex, n⟩]⟩ := by
  have hmem := h.extents.curr addr hcurr
  have haddr : 16 ∣ addr := (show 16 ∣ cacheLineSize by decide).trans (h.extents.placed addr hmem).2.1
  have hslot := h.extents.slotAligned
  have hnew : Region.Within ⟨addr + a.currentSlotIndex, n⟩ (a.extent addr) := by
    refine ⟨Nat.le_add_right _ _, ?_⟩
    simp only [Region.stop, WordArena.extent]
    omega
  refine ⟨{ h.extents with
    slot := hfits
    slotAligned := Nat.dvd_add hslot hdvd
    noExtent := ?_ }, ?_, ?_, ?_⟩
  · intro hnone
    rw [hcurr] at hnone
    cases hnone
  · intro r hr
    rcases mem_append.mp hr with hr | hr
    · exact h.aligned r hr
    · rw [mem_singleton.mp hr]
      exact Nat.dvd_add haddr hslot
  · intro r hr
    rcases mem_append.mp hr with hr | hr
    · obtain ⟨e, he, hwithin, hbelow⟩ := h.within r hr
      exact ⟨e, he, hwithin, fun hcurr' => (hbelow hcurr').trans (by dsimp only; omega)⟩
    · rw [mem_singleton.mp hr]
      refine ⟨addr, hmem, hnew, fun _ => ?_⟩
      simp only [Region.stop]
      omega
  · refine pairwise_append.mpr ⟨h.apart, pairwise_singleton _ _, fun r hr q hq => ?_⟩
    rw [mem_singleton.mp hq]
    obtain ⟨e, he, hwithin, hbelow⟩ := h.within r hr
    by_cases heq : e = addr
    · -- in the current extent everything is below the cursor
      exact .inl (heq ▸ hbelow (heq ▸ hcurr))
    · have hsymm : Std.Symm fun e f => (a.extent e).Apart (a.extent f) := ⟨fun _ _ => Region.Apart.symm⟩
      have hextents : (a.extent e).Apart (a.extent addr) := h.extents.apart.forall he hmem heq
      exact hextents.of_within hwithin hnew

theorem allocateNewExtent (h : ArenaInv ⟨a, ranges⟩) (hmem : a.MemalignOk memory) :
    ArenaInv ⟨{ a.allocateNewExtent memory with currentSlotIndex := 0 }, ranges⟩ := by
  rcases h.extents.allocateNewExtent_cases memory with heq | ⟨addr, rfl, hbudget, heq⟩
  · rw [heq]
    exact h.noExtent
  · rw [heq]
    exact h.newExtent hmem hbudget

theorem takeItems (h : ArenaInv ⟨a, ranges⟩) (hn : n ≤ nItems) (hdvd : 16 ∣ nItems)
    (hfits : a.currentSlotIndex + nItems ≤ a.extentSize) {ptr : Option ℕ} {a' : WordArena}
    (htake : a.takeItems nItems = (ptr, a')) :
    ArenaInv ⟨a', ranges ++ (ptr.map fun addr => ⟨addr, n⟩).toList⟩ := by
  have hsize : a.extentSize < 2 ^ 64 := h.extents.size.2
  rw [WordArena.takeItems] at htake
  rcases hcurr : a.currExtent with - | addr
  · rw [hcurr] at htake
    cases htake
    simpa using h
  · rw [hcurr, Nat.mod_eq_of_lt (by omega)] at htake
    cases htake
    simpa [hcurr] using h.take hcurr hn hdvd hfits

end ArenaInv

theorem arenaStep_inv {s s' : ArenaRun} {c : ArenaCall} (h : ArenaInv s) (hok : c.Ok s)
    (hstep : arenaStep s c = some s') : ArenaInv s' := by
  obtain ⟨hn, hmem⟩ := hok
  obtain ⟨hle, hdvd, hup⟩ := WordArena.roundUp_spec c.nItems
  have hcursor := h.extents.cursor_lt (n := roundUp c.nItems 16) (by omega)
  rcases hcall : s.arena.allocateMany c.nItems 16 c.memory with ⟨ptr, a⟩
  have hstep' : s' = ⟨a, s.ranges ++ (ptr.map fun addr => ⟨addr, c.nItems⟩).toList⟩ := by
    rw [arenaStep, hcall] at hstep
    rcases ptr with - | addr
    · simpa using (Option.some.inj hstep).symm
    · exact (Option.some.inj hstep).symm
  rw [hstep']
  rw [WordArena.allocateMany, WordArena.roundUpWord_eq hn, WordArena.allocateManyImpl,
    Nat.mod_eq_of_lt hcursor] at hcall
  split at hcall
  · split at hcall
    · cases hcall
      simpa using h
    · next hsize =>
      refine (h.allocateNewExtent hmem).takeItems hle hdvd ?_ hcall
      show 0 + roundUp c.nItems 16 ≤ (s.arena.allocateNewExtent c.memory).extentSize
      rw [(WordArena.allocateNewExtent_config _ _).1]
      omega
  · next hfits => exact h.takeItems hle hdvd (Nat.not_lt.mp hfits) hcall

theorem arenaStep_budget {s s' : ArenaRun} {c : ArenaCall} (hstep : arenaStep s c = some s') :
    s'.arena.budget = s.arena.budget := by
  have hcall := WordArena.budget_allocateMany s.arena c.nItems 16 c.memory
  rw [arenaStep] at hstep
  split at hstep <;> next heq =>
    cases hstep
    rw [heq] at hcall
    exact hcall

theorem arenaInv_make {budget hint : ℕ} {memory : Option ℕ} (hhint : hint < 2 ^ 64)
    (hmem : (WordArena.empty budget hint).MemalignOk memory) :
    ArenaInv ⟨WordArena.make budget hint memory, []⟩ := by
  have hempty : ArenaInv ⟨WordArena.empty budget hint, []⟩ := by
    refine ⟨⟨?_, by simp [WordArena.empty], Pairwise.nil, by simp [WordArena.empty], Nat.zero_le _,
      ?_, Nat.zero_le _, Nat.dvd_zero _, fun _ => rfl⟩, by simp, by simp, Pairwise.nil⟩
    · show 4096 ≤ max hint 4096 ∧ max hint 4096 < 2 ^ 64
      omega
    · intro e he
      cases he
  rw [WordArena.make]
  rcases hempty.extents.allocateNewExtent_cases memory with heq | ⟨addr, rfl, hbudget, heq⟩
  · rw [heq]
    exact hempty.noExtent
  · rw [heq]
    exact hempty.newExtent hmem hbudget

/-- **Allocations never overlap.**  After any calls of `allocate_many` on a new arena the
regions handed out lie in extents of the arena, start at multiples of 16, and are apart from
each other; the extents are apart from each other and together within the budget. -/
theorem arena_regions_apart {budget hint : ℕ} {memory : Option ℕ} (hhint : hint < 2 ^ 64)
    (hmem : (WordArena.empty budget hint).MemalignOk memory) {calls : List ArenaCall} {s : ArenaRun}
    (hcalls : Run.AllSteps arenaStep (fun s c => c.Ok s) ⟨WordArena.make budget hint memory, []⟩ calls)
    (hrun : Run.exec arenaStep ⟨WordArena.make budget hint memory, []⟩ calls = some s) :
    (∀ r ∈ s.ranges, ∃ e ∈ s.arena.extents, r.Within (s.arena.extent e)) ∧
      (∀ r ∈ s.ranges, 16 ∣ r.start) ∧
      s.ranges.Pairwise Region.Apart ∧
      (s.arena.extents.Pairwise fun e f => (s.arena.extent e).Apart (s.arena.extent f)) ∧
      s.arena.extents.length * s.arena.extentSize ≤ budget := by
  have hinv : ArenaInv s :=
    Run.exec_invariant (fun _ _ _ h hok hstep => arenaStep_inv h hok hstep)
      (arenaInv_make hhint hmem) hcalls hrun
  have hbudget : s.arena.budget = budget :=
    Run.exec_invariant (I := fun u => u.arena.budget = budget)
      (fun _ _ _ h _ hstep => (arenaStep_budget hstep).trans h)
      (WordArena.allocateNewExtent_config _ _).2 hcalls hrun
  refine ⟨fun r hr => ?_, hinv.aligned, hinv.apart, hinv.extents.apart, ?_⟩
  · obtain ⟨e, he, hwithin, -⟩ := hinv.within r hr
    exact ⟨e, he, hwithin⟩
  · rw [← hbudget, ← hinv.extents.total]
    exact hinv.extents.budget

/-- Two values in the first extent, one in the second, and one more for which there is no
budget. -/
def arenaCalls : List ArenaCall := [⟨17, none⟩, ⟨4000, none⟩, ⟨100, some 8192⟩, ⟨4096, some 65536⟩]

theorem arena_regions_apart_arenaCalls :
    ∃ s, Run.exec arenaStep ⟨WordArena.make 8192 0 (some 4096), []⟩ arenaCalls = some s ∧
      s.ranges = [⟨4096, 17⟩, ⟨4128, 4000⟩, ⟨8192, 100⟩] ∧ s.arena.currExtent = none ∧
      s.ranges.Pairwise Region.Apart := by
  have hrun : Run.exec arenaStep ⟨WordArena.make 8192 0 (some 4096), []⟩ arenaCalls =
      some ⟨⟨8192, 4096, 8192, [4096, 8192], none, 0⟩,
        [⟨4096, 17⟩, ⟨4128, 4000⟩, ⟨8192, 100⟩]⟩ := by decide
  have hok := arena_regions_apart (by decide) (by decide) (by decide) hrun
  exact ⟨_, hrun, rfl, rfl, hok.2.2.1⟩

/-- **The arena of words refines the arena of `Arena` over every run** in which `posix_memalign`
gives memory: no sum wraps, and the addresses make no difference. -/
theorem arena_run_refines {budget hint addr : ℕ} (hhint : hint < 2 ^ 64)
    (hmem : (WordArena.empty budget hint).MemalignOk (some addr)) {calls : List ArenaCall}
    {s : ArenaRun} (hcalls : Run.AllSteps arenaStep (fun s c => c.Ok s ∧ c.memory.isSome)
      ⟨WordArena.make budget hint (some addr), []⟩ calls)
    (hrun : Run.exec arenaStep ⟨WordArena.make budget hint (some addr), []⟩ calls = some s) :
    s.arena.toArena =
      calls.foldl (fun a c => (a.allocateMany c.nItems 16).2) (.make budget hint) := by
  have hstart : (WordArena.make budget hint (some addr)).toArena = .make budget hint := by
    simp only [WordArena.make, WordArena.empty, WordArena.allocateNewExtent, Arena.make,
      Arena.allocateNewExtent, Nat.mod_eq_of_lt (show 0 + max hint 4096 < 2 ^ 64 by omega)]
    split <;> rfl
  refine (Run.exec_simulation (R := fun s m => ArenaInv s ∧ s.arena.toArena = m) ?_
    ⟨arenaInv_make hhint hmem, hstart⟩ hcalls hrun).2
  rintro s _ ⟨n, memory⟩ s' ⟨h, rfl⟩ ⟨hok, hsome⟩ hstep
  obtain ⟨addr, rfl⟩ := Option.isSome_iff_exists.mp hsome
  refine ⟨arenaStep_inv h hok hstep, ?_⟩
  rw [← (WordArena.toArena_allocateMany h.extents hok.1 addr).1]
  unfold arenaStep at hstep
  split at hstep <;> next heq =>
    cases hstep
    rw [heq]

def twoExtentCalls : List ArenaCall :=
  [⟨4000, some 8192⟩, ⟨200, some 8192⟩, ⟨17, some 12288⟩]

theorem arena_run_refines_two_extents : ∃ s,
    Run.exec arenaStep ⟨.make 8192 0 (some 4096), []⟩ twoExtentCalls = some s ∧
      s.arena.extents = [4096, 8192] ∧
      s.arena.toArena = twoExtentCalls.foldl (fun a c => (a.allocateMany c.nItems 16).2)
        (.make 8192 0) := by
  have hrun : Run.exec arenaStep ⟨.make 8192 0 (some 4096), []⟩ twoExtentCalls =
      some ⟨⟨8192, 4096, 8192, [4096, 8192], some 8192, 240⟩,
        [⟨4096, 4000⟩, ⟨8192, 200⟩, ⟨8400, 17⟩]⟩ := by decide +kernel
  exact ⟨_, hrun, rfl, arena_run_refines (by decide) (by decide) (by decide +kernel) hrun⟩

end HedgeDB
