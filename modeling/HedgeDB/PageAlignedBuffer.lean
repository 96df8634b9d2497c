/-
HedgeDB/PageAlignedBuffer.lean

The page-aligned buffer (`src/page_aligned_buffer.h`).

A `std::vector`-like buffer whose memory comes in whole pages.  The memory is a list of
cells, where a cell without an element is `none`; what writes at an index that is not below
the capacity, or assigns to a cell without an element for a type where this is not defined,
has no result.  `aligned_alloc` is assumed to succeed.  The assertions of the source are not
part of the model.

Several buffers take part, since `move` is between two of them.  Each behaves like a list
exactly as long as every operation is one that `Fits` (`buffers_behave_iff`): doubling the
size gives room for another element only if the size is not 0, and the bytes of a request
must fit 64 bits.
-/
import HedgeDB.Run
import HedgeDB.Types

namespace HedgeDB

open List Function

variable {ι α : Type*}

/-- The element type `T`, with `requires(sizeof(T) < PAGE_SIZE_IN_BYTES)`. -/
structure ElementType where
  size : ℕ
  /-- Assignment only stores the value, so that it may be used where there is no element. -/
  trivialAssign : Bool
  size_pos : 0 < size
  size_lt : size < pageSizeInBytes

inductive BufferConstructor where
  | empty
  | sized (size : ℕ)
  | reserved (size capacity : ℕ)

/-- `page_aligned_buffer<T>`. -/
structure PageAlignedBuffer (α : Type*) where
  buf : List (Option α) := []
  size : ℕ := 0
  capacity : ℕ := 0

namespace PageAlignedBuffer

/-- The elements from `begin` to `end`. -/
def elements (b : PageAlignedBuffer α) : List (Option α) := b.buf.take b.size

/-- Elements are constructed from index `i` on (`std::uninitialized_fill`,
`std::uninitialized_move` and placement `new`). -/
def construct (b : PageAlignedBuffer α) (i : ℕ) (xs : List (Option α)) :
    Option (PageAlignedBuffer α) :=
  if i + xs.length ≤ b.capacity then
    some { b with buf := b.buf.take i ++ xs ++ b.buf.drop (i + xs.length) }
  else none

/-- Elements are assigned from index `i` on (`std::fill`). -/
def fill (T : ElementType) (b : PageAlignedBuffer α) (i : ℕ) (xs : List (Option α)) :
    Option (PageAlignedBuffer α) :=
  if T.trivialAssign ∨ ((b.buf.drop i).take xs.length).all Option.isSome then b.construct i xs
  else none

def allocateBuffer (T : ElementType) (s c : ℕ) : PageAlignedBuffer α :=
  let bufSizeBytes := ceilPageAlign (c * T.size % 2 ^ 64)
  let capacity := bufSizeBytes / T.size
  { buf := replicate capacity none, size := s, capacity }

def initBuffer [Inhabited α] (b : PageAlignedBuffer α) : Option (PageAlignedBuffer α) :=
  b.construct 0 (replicate b.size (some default))

def make [Inhabited α] (T : ElementType) : BufferConstructor → Option (PageAlignedBuffer α)
  | .empty => some {}
  | .sized size => (allocateBuffer T size size).initBuffer
  | .reserved size capacity => (allocateBuffer T size capacity).initBuffer

/-- `_grow`: the elements are moved to new memory. -/
def grow (T : ElementType) (b : PageAlignedBuffer α) (newCapacity : ℕ) :
    Option (PageAlignedBuffer α) :=
  (allocateBuffer T b.size newCapacity).construct 0 b.elements

def resize [Inhabited α] (T : ElementType) (b : PageAlignedBuffer α) (newSize : ℕ) :
    Option (PageAlignedBuffer α) :=
  if newSize < b.size then
    -- the destructors
    some { b with
      buf := b.buf.take newSize ++ replicate (b.size - newSize) none ++ b.buf.drop b.size
      size := newSize }
  else if newSize > b.size then do
    let b' ← if newSize > b.capacity then b.grow T newSize else some b
    let b' ← b'.fill T b.size (replicate (newSize - b.size) (some default))
    some { b' with size := newSize }
  else some { b with size := newSize }

def reserve (T : ElementType) (b : PageAlignedBuffer α) (newCapacity : ℕ) :
    Option (PageAlignedBuffer α) :=
  if newCapacity > b.capacity then b.grow T newCapacity else some b

def appendUnsafe (b : PageAlignedBuffer α) (x : α) : Option (PageAlignedBuffer α) :=
  ({ b with size := b.size + 1 } : PageAlignedBuffer α).construct b.size [some x]

def emplaceBack (T : ElementType) (b : PageAlignedBuffer α) (x : α) :
    Option (PageAlignedBuffer α) := do
  let b ← if b.size = b.capacity then b.grow T (b.size * 2 % 2 ^ 64) else some b
  b.appendUnsafe x

def shrinkToFit (T : ElementType) (b : PageAlignedBuffer α) : Option (PageAlignedBuffer α) :=
  let alignedSizeBytes := ceilPageAlign (b.size * T.size % 2 ^ 64)
  let alignedCapacityBytes := b.capacity * T.size % 2 ^ 64
  if alignedSizeBytes < alignedCapacityBytes then b.grow T b.size else some b

end PageAlignedBuffer

/-- An operation on one of the buffers.  `assign` is the construction of a buffer, which takes
the place of another one. -/
inductive BufferOp (ι α : Type*) where
  | assign (i : ι) (c : BufferConstructor)
  | emplaceBack (i : ι) (x : α)
  | resize (i : ι) (newSize : ℕ)
  | reserve (i : ι) (newCapacity : ℕ)
  | shrinkToFit (i : ι)
  | free (i : ι)
  | move (source target : ι)

variable [DecidableEq ι] [Inhabited α]

/-- One operation. -/
def bufferStep (T : ElementType) (s : ι → PageAlignedBuffer α) :
    BufferOp ι α → Option (ι → PageAlignedBuffer α)
  | .assign i c => (PageAlignedBuffer.make T c).map (update s i)
  | .emplaceBack i x => ((s i).emplaceBack T x).map (update s i)
  | .resize i n => ((s i).resize T n).map (update s i)
  | .reserve i n => ((s i).reserve T n).map (update s i)
  | .shrinkToFit i => ((s i).shrinkToFit T).map (update s i)
  | .free i => some (update s i {})
  | .move i j => some (if j = i then s else update (update s j (s i)) i {})

omit [DecidableEq ι] in
def BufferConstructor.list : BufferConstructor → List α
  | .empty => []
  | .sized size => replicate size default
  | .reserved size _ => replicate size default

/-- What the operations are for. -/
def listStep (m : ι → List α) : BufferOp ι α → ι → List α
  | .assign i c => update m i c.list
  | .emplaceBack i x => update m i (m i ++ [x])
  | .resize i n =>
      update m i ((m i).take n ++ replicate (n - (m i).length) default)
  | .reserve _ _ => m
  | .shrinkToFit _ => m
  | .free i => update m i []
  | .move i j => if j = i then m else update (update m j (m i)) i []

/-! ### The capacity of an allocation -/

namespace ElementType

variable (T : ElementType) {n c : ℕ}

/-- The capacity of a buffer that is allocated for `c` elements. -/
def capacityFor (c : ℕ) : ℕ := ceilPageAlign (c * T.size % 2 ^ 64) / T.size

/-- The pages of `n` elements fit the address space. -/
def Allocable (n : ℕ) : Prop := n * T.size + pageSizeInBytes ≤ 2 ^ 64

instance decidableAllocable (n : ℕ) : Decidable (T.Allocable n) := inferInstanceAs (Decidable (_ ≤ _))

theorem ceilPageAlign_le (value : ℕ) : ceilPageAlign value + pageSizeInBytes ≤ 2 ^ 64 := by
  rw [ceilPageAlign, pageSizeInBytes]
  omega

theorem capacityFor_zero : T.capacityFor 0 = 0 := by
  rw [capacityFor, Nat.zero_mul, Nat.zero_mod]
  exact Nat.zero_div _

theorem allocable_capacityFor (c : ℕ) : T.Allocable (T.capacityFor c) := by
  have hle : T.capacityFor c * T.size ≤ ceilPageAlign (c * T.size % 2 ^ 64) :=
    Nat.div_mul_le_self _ _
  have hmax := ceilPageAlign_le (c * T.size % 2 ^ 64)
  rw [Allocable]
  omega

theorem Allocable.mono {T : ElementType} (h : T.Allocable c) (hle : n ≤ c) : T.Allocable n := by
  have hmul : n * T.size ≤ c * T.size := Nat.mul_le_mul_right _ hle
  rw [Allocable] at h ⊢
  omega

theorem le_capacityFor_iff : n ≤ T.capacityFor n ↔ T.Allocable n := by
  constructor
  · intro hle
    exact (T.allocable_capacityFor n).mono hle
  · intro h
    rw [Allocable, pageSizeInBytes] at h
    rw [capacityFor, Nat.le_div_iff_mul_le T.size_pos, Nat.mod_eq_of_lt (by omega), ceilPageAlign,
      pageSizeInBytes]
    omega

theorem lt_capacityFor_double_iff (h : T.Allocable n) :
    n < T.capacityFor (n * 2 % 2 ^ 64) ↔ 0 < n ∧ T.Allocable (n * 2) := by
  have hsize : n * 2 * T.size = 2 * (n * T.size) := by
    rw [Nat.mul_comm n, Nat.mul_assoc]
  constructor
  · intro hlt
    have hpos : 0 < n := by
      rcases Nat.eq_zero_or_pos n with rfl | hpos
      · rw [Nat.zero_mul, Nat.zero_mod, capacityFor_zero] at hlt
        exact hlt
      · exact hpos
    refine ⟨hpos, ?_⟩
    -- if the bytes wrap, there are fewer than before
    have hbytes : (n + 1) * T.size ≤ ceilPageAlign (2 * (n * T.size) % 2 ^ 64) := by
      rw [capacityFor, Nat.mod_mul_mod, hsize] at hlt
      exact (Nat.le_div_iff_mul_le T.size_pos).mp hlt
    rw [Nat.add_mul, Nat.one_mul] at hbytes
    have hT := T.size_pos
    rw [Allocable, pageSizeInBytes] at h ⊢
    rw [ceilPageAlign, pageSizeInBytes] at hbytes
    omega
  · rintro ⟨hpos, hdouble⟩
    have hroom := T.le_capacityFor_iff.mpr hdouble
    have hlt : n * 2 < 2 ^ 64 := by
      have hle : n * 2 * 1 ≤ n * 2 * T.size := Nat.mul_le_mul_left _ T.size_pos
      rw [Allocable, pageSizeInBytes] at hdouble
      omega
    rw [Nat.mod_eq_of_lt hlt]
    omega

end ElementType

/-! ### What the operations do to a list of elements -/

variable {l : List α}

namespace PageAlignedBuffer

omit [DecidableEq ι]

variable {T : ElementType} {l : List α} {c : ℕ}

section

omit [Inhabited α]

/-- The elements of `l` at the start of memory for `c` of them. -/
def ofList (l : List α) (c : ℕ) : PageAlignedBuffer α :=
  { buf := l.map some ++ replicate (c - l.length) none, size := l.length, capacity := c }

theorem elements_ofList (l : List α) (c : ℕ) : (ofList l c).elements = l.map some :=
  take_left' (length_map _)

theorem construct_ofList (l xs : List α) (c s : ℕ) :
    ({ ofList l c with size := s } : PageAlignedBuffer α).construct l.length (xs.map some) =
      if l.length + xs.length ≤ c then some { ofList (l ++ xs) c with size := s } else none := by
  have htake : (ofList l c).buf.take l.length = l.map some := take_left' (length_map _)
  have hdrop : (ofList l c).buf.drop (l.length + xs.length) =
      replicate (c - (l ++ xs).length) none := by
    rw [ofList, ← drop_drop, drop_left' (length_map _), drop_replicate, length_append, Nat.sub_sub]
  rw [construct, length_map]
  dsimp only
  rw [htake, hdrop, ← map_append]
  rfl

theorem allocateBuffer_eq (T : ElementType) (s c : ℕ) :
    (allocateBuffer T s c : PageAlignedBuffer α) =
      { ofList [] (T.capacityFor c) with size := s } := rfl

end

theorem initBuffer_allocateBuffer (T : ElementType) (n c : ℕ) :
    (allocateBuffer T n c : PageAlignedBuffer α).initBuffer =
      if n ≤ T.capacityFor c then some (ofList (replicate n default) (T.capacityFor c))
      else none := by
  have h := construct_ofList [] (replicate n (default : α)) (T.capacityFor c) n
  rw [map_replicate, length_nil, Nat.zero_add, length_replicate, nil_append] at h
  rw [initBuffer, allocateBuffer_eq]
  refine h.trans ?_
  split
  · rw [ofList, length_replicate]
  · rfl

omit [Inhabited α] in
theorem grow_ofList (T : ElementType) (l : List α) (c n : ℕ) :
    (ofList l c).grow T n =
      if l.length ≤ T.capacityFor n then some (ofList l (T.capacityFor n)) else none := by
  have h := construct_ofList [] l (T.capacityFor n) l.length
  rw [length_nil, Nat.zero_add, nil_append] at h
  rw [grow, elements_ofList]
  exact h

omit [Inhabited α] in
theorem appendUnsafe_ofList (l : List α) (c : ℕ) (x : α) :
    (ofList l c).appendUnsafe x = if l.length < c then some (ofList (l ++ [x]) c) else none := by
  have h := construct_ofList l [x] c (l.length + 1)
  rw [appendUnsafe]
  refine h.trans ?_
  rw [length_singleton]
  show (if l.length < c then some _ else none) = _
  split
  · rw [ofList, length_append, length_singleton]
  · rfl

variable {n : ℕ}

/-- Behind the elements there are none, and so only a type with trivial assignment may be
assigned there. -/
theorem fill_ofList (T : ElementType) (l : List α) (hn : 0 < n) :
    (ofList l c).fill T l.length (replicate n (some default)) =
      if T.trivialAssign ∧ l.length + n ≤ c then
        some { ofList (l ++ replicate n default) c with size := l.length }
      else none := by
  have h := construct_ofList l (replicate n (default : α)) c l.length
  rw [map_replicate, length_replicate] at h
  have hcells : ((ofList l c).buf.drop l.length).take n =
      replicate (min n (c - l.length)) none := by
    rw [ofList, drop_left' (length_map _), take_replicate]
  rw [fill, length_replicate, hcells]
  by_cases htrivial : T.trivialAssign = true
  · rw [if_pos (.inl htrivial)]
    exact h.trans (if_congr (and_iff_right htrivial).symm rfl rfl)
  · have hnone : ¬ (T.trivialAssign = true ∧ l.length + n ≤ c) := fun hand => htrivial hand.1
    rw [if_neg hnone]
    by_cases hfull : c ≤ l.length
    · -- not a single cell to assign to, and so none that has no element
      have hlarge : ¬ l.length + n ≤ c := by omega
      rw [if_neg hlarge] at h
      split
      · exact h
      · rfl
    · have hcell : min n (c - l.length) ≠ 0 := by omega
      rw [if_neg]
      rintro (h' | h')
      · exact htrivial h'
      · simp [hcell] at h'

theorem resize_ofList_le (T : ElementType) (hle : l.length ≤ c) (hn : n ≤ l.length) :
    (ofList l c).resize T n = some (ofList (l.take n) c) := by
  have hlen : (l.take n).length = n := by rw [length_take, Nat.min_eq_left hn]
  have hsize : (ofList l c).size = l.length := rfl
  rw [resize, hsize]
  rcases Nat.lt_or_eq_of_le hn with hlt | rfl
  · have htake : (ofList l c).buf.take n = (l.take n).map some := by
      rw [ofList, take_append_of_le_length (by rw [length_map]; exact hn), map_take]
    have hdrop : (ofList l c).buf.drop l.length = replicate (c - l.length) none :=
      drop_left' (length_map _)
    rw [if_pos hlt, htake, hdrop, append_assoc, replicate_append_replicate,
      show l.length - n + (c - l.length) = c - n by omega]
    simp only [ofList, hlen]
  · rw [if_neg (Nat.lt_irrefl _), if_neg (Nat.lt_irrefl _), take_length]
    rfl

theorem resize_ofList_gt (T : ElementType) (hn : l.length < n) :
    (ofList l c).resize T n =
      if T.trivialAssign ∧ (c < n → T.Allocable n) then
        some (ofList (l ++ replicate (n - l.length) default)
          (if c < n then T.capacityFor n else c))
      else none := by
  have hsize : (ofList l c).size = l.length ∧ (ofList l c).capacity = c := ⟨rfl, rfl⟩
  have hlen : (l ++ replicate (n - l.length) (default : α)).length = n := by
    rw [length_append, length_replicate]
    omega
  have hfill : ∀ c', ((ofList l c').fill T l.length
      (replicate (n - l.length) (some default))).bind
        (fun b' => some { b' with size := n }) =
      if T.trivialAssign ∧ n ≤ c' then
        some (ofList (l ++ replicate (n - l.length) default) c')
      else none := by
    intro c'
    rw [fill_ofList T l (by omega : 0 < n - l.length), show l.length + (n - l.length) = n by omega]
    split
    · rw [ofList, hlen]
      rfl
    · rfl
  rw [resize, hsize.1, hsize.2, if_neg (by omega), if_pos hn]
  by_cases hlarge : c < n
  · have hiff : n ≤ T.capacityFor n ↔ T.Allocable n := T.le_capacityFor_iff
    rw [if_pos hlarge, if_pos hlarge, grow_ofList]
    by_cases hroom : n ≤ T.capacityFor n
    · rw [if_pos (by omega)]
      refine (hfill _).trans (if_congr (and_congr_right' ?_) rfl rfl)
      exact iff_of_true hroom fun _ => hiff.mp hroom
    · -- even where the elements have room, the new ones have not
      have hnone : ¬ (T.trivialAssign = true ∧ (c < n → T.Allocable n)) :=
        fun h => hroom (hiff.mpr (h.2 hlarge))
      rw [if_neg hnone]
      split
      · exact (hfill _).trans (if_neg fun h => hroom h.2)
      · rfl
  · rw [if_neg hlarge, if_neg hlarge]
    refine (hfill _).trans (if_congr (and_congr_right' ?_) rfl rfl)
    exact iff_of_true (by omega) fun h => absurd h hlarge

section

omit [Inhabited α]

theorem reserve_ofList (T : ElementType) (l : List α) (c n : ℕ) :
    (ofList l c).reserve T n =
      if c < n then
        if l.length ≤ T.capacityFor n then some (ofList l (T.capacityFor n)) else none
      else some (ofList l c) := by
  rw [← grow_ofList T l c n]
  rfl

theorem emplaceBack_ofList (T : ElementType) (hle : l.length ≤ c) (hbytes : T.Allocable c) (x : α) :
    (ofList l c).emplaceBack T x =
      if l.length = c → 0 < c ∧ T.Allocable (c * 2) then
        some (ofList (l ++ [x]) (if l.length = c then T.capacityFor (c * 2 % 2 ^ 64) else c))
      else none := by
  have hsize : (ofList l c).size = l.length ∧ (ofList l c).capacity = c := ⟨rfl, rfl⟩
  rw [emplaceBack, hsize.1, hsize.2]
  by_cases hfull : l.length = c
  · have hiff := T.lt_capacityFor_double_iff hbytes
    rw [if_pos hfull, if_pos hfull, grow_ofList, hfull]
    by_cases hroom : c < T.capacityFor (c * 2 % 2 ^ 64)
    · rw [if_pos hroom.le, if_pos fun _ => hiff.mp hroom]
      show (ofList l _).appendUnsafe x = _
      rw [appendUnsafe_ofList, hfull, if_pos hroom]
    · have hnone : ¬ (c = c → 0 < c ∧ T.Allocable (c * 2)) := fun h => hroom (hiff.mpr (h rfl))
      rw [if_neg hnone]
      split
      · show (ofList l _).appendUnsafe x = _
        rw [appendUnsafe_ofList, hfull, if_neg hroom]
      · rfl
  · rw [if_neg hfull, if_neg hfull, if_pos fun h => absurd h hfull]
    show (ofList l c).appendUnsafe x = _
    rw [appendUnsafe_ofList, if_pos (by omega)]

theorem shrinkToFit_ofList (T : ElementType) (hle : l.length ≤ c) (hbytes : T.Allocable c) :
    ∃ c', (ofList l c).shrinkToFit T = some (ofList l c') ∧ l.length ≤ c' ∧ T.Allocable c' := by
  rw [shrinkToFit]
  split
  · have hroom : l.length ≤ T.capacityFor l.length := T.le_capacityFor_iff.mpr (hbytes.mono hle)
    refine ⟨T.capacityFor l.length, ?_, hroom, T.allocable_capacityFor _⟩
    exact (grow_ofList T l c l.length).trans (if_pos hroom)
  · exact ⟨c, rfl, hle, hbytes⟩

end

end PageAlignedBuffer

/-! ### Runs -/

open PageAlignedBuffer

/-- What the buffers are between two operations: some list in memory for at least that many
elements. -/
def PageAlignedBuffer.Holds (T : ElementType) (b : PageAlignedBuffer α) (l : List α) : Prop :=
  ∃ c, b = ofList l c ∧ l.length ≤ c ∧ T.Allocable c

/-- What a constructor needs: its elements have room. -/
def BufferConstructor.Fits (T : ElementType) : BufferConstructor → Prop
  | .empty => True
  | .sized size => T.Allocable size
  | .reserved size capacity => size ≤ T.capacityFor capacity

/-- What an operation needs.  A buffer that is full doubles its size, which is of use only if it
has a size; a request for more than fits the address space wraps to a smaller one; and new
elements of `resize` are assigned. -/
def BufferOp.Fits (T : ElementType) (s : ι → PageAlignedBuffer α) : BufferOp ι α → Prop
  | .assign _ c => c.Fits T
  | .emplaceBack i _ =>
      (s i).size = (s i).capacity → 0 < (s i).capacity ∧ T.Allocable ((s i).capacity * 2)
  | .resize i n =>
      (s i).size < n → T.trivialAssign ∧ ((s i).capacity < n → T.Allocable n)
  | .reserve i n => (s i).capacity < n → (s i).size ≤ T.capacityFor n
  | .shrinkToFit _ => True
  | .free _ => True
  | .move _ _ => True

section Runs

variable {T : ElementType} {s s' : ι → PageAlignedBuffer α} {m : ι → List α}

/-- The outcome of an operation on one buffer: there is one exactly if `P`, and then the buffer
holds `l`. -/
structure Gives (T : ElementType) (P : Prop) (r : Option (PageAlignedBuffer α)) (l : List α) :
    Prop where
  isSome_iff : r.isSome ↔ P
  holds : ∀ b, r = some b → Holds T b l

variable {P : Prop}

section

omit [DecidableEq ι] [Inhabited α]

theorem PageAlignedBuffer.Holds.gives {b : PageAlignedBuffer α} (h : Holds T b l) (hP : P) :
    Gives T P (some b) l := by
  refine ⟨iff_of_true rfl hP, fun b' hb' => ?_⟩
  obtain rfl := Option.some.inj hb'
  exact h

theorem gives_ite {Q : Prop} [Decidable Q] {c : ℕ} (hiff : Q ↔ P)
    (h : P → l.length ≤ c ∧ T.Allocable c) :
    Gives T P (if Q then some (ofList l c) else none) l := by
  by_cases hQ : Q
  · rw [if_pos hQ]
    have hP := hiff.mp hQ
    exact Holds.gives ⟨c, rfl, h hP⟩ hP
  · rw [if_neg hQ]
    refine ⟨iff_of_false Bool.false_ne_true (mt hiff.mpr hQ), fun b hb => ?_⟩
    cases hb

theorem PageAlignedBuffer.holds_nil (T : ElementType) : Holds T ({} : PageAlignedBuffer α) [] := by
  refine ⟨0, rfl, Nat.le_refl 0, ?_⟩
  rw [ElementType.Allocable, Nat.zero_mul, pageSizeInBytes]
  decide

end

omit [DecidableEq ι] in
theorem make_gives (T : ElementType) (c : BufferConstructor) :
    Gives T (c.Fits T) (make T c) (c.list : List α) := by
  cases c with
  | empty => exact (holds_nil T).gives trivial
  | sized n =>
    rw [make, initBuffer_allocateBuffer]
    apply gives_ite T.le_capacityFor_iff
    intro h
    rw [length_replicate]
    exact ⟨T.le_capacityFor_iff.mpr h, T.allocable_capacityFor n⟩
  | reserved n c =>
    rw [make, initBuffer_allocateBuffer]
    show Gives T (n ≤ T.capacityFor c) _ _
    apply gives_ite Iff.rfl
    intro h
    rw [length_replicate]
    exact ⟨h, T.allocable_capacityFor c⟩

variable {i : ι}

omit [DecidableEq ι] [Inhabited α] in
theorem emplaceBack_gives (h : Holds T (s i) (m i)) (x : α) :
    Gives T ((BufferOp.emplaceBack i x).Fits T s) ((s i).emplaceBack T x) (m i ++ [x]) := by
  obtain ⟨c, hs, hle, hbytes⟩ := h
  rw [BufferOp.Fits, hs, emplaceBack_ofList T hle hbytes]
  apply gives_ite Iff.rfl
  intro hfits
  rw [length_append, length_singleton]
  split
  · next hfull =>
    have hroom := (T.lt_capacityFor_double_iff hbytes).mpr (hfits hfull)
    exact ⟨hfull ▸ hroom, T.allocable_capacityFor _⟩
  · exact ⟨by omega, hbytes⟩

omit [DecidableEq ι] in
theorem resize_gives (h : Holds T (s i) (m i)) (n : ℕ) :
    Gives T ((BufferOp.resize i n : BufferOp ι α).Fits T s) ((s i).resize T n)
      ((m i).take n ++ replicate (n - (m i).length) default) := by
  obtain ⟨c, hs, hle, hbytes⟩ := h
  rw [BufferOp.Fits, hs]
  by_cases hn : n ≤ (m i).length
  · -- nothing is needed to make the buffer smaller
    rw [resize_ofList_le T hle hn, Nat.sub_eq_zero_of_le hn, replicate_zero,
      append_nil]
    refine Holds.gives ⟨c, rfl, ?_, hbytes⟩ fun hlt => absurd hn (not_le.mpr hlt)
    exact (length_take_le' _ _).trans hle
  · rw [not_le] at hn
    rw [resize_ofList_gt T hn, take_of_length_le hn.le]
    refine gives_ite ⟨fun hfits _ => hfits, fun hfits => hfits hn⟩ fun hfits => ?_
    rw [length_append, length_replicate]
    split
    · next hlarge =>
      have hroom := T.le_capacityFor_iff.mpr ((hfits hn).2 hlarge)
      exact ⟨by omega, T.allocable_capacityFor n⟩
    · exact ⟨by omega, hbytes⟩

omit [DecidableEq ι] [Inhabited α] in
theorem reserve_gives (h : Holds T (s i) (m i)) (n : ℕ) :
    Gives T ((BufferOp.reserve i n : BufferOp ι α).Fits T s) ((s i).reserve T n) (m i) := by
  obtain ⟨c, hs, hle, hbytes⟩ := h
  rw [BufferOp.Fits, hs, reserve_ofList]
  by_cases hlarge : c < n
  · rw [if_pos hlarge]
    exact gives_ite ⟨fun hroom _ => hroom, fun hfits => hfits hlarge⟩
      fun hfits => ⟨hfits hlarge, T.allocable_capacityFor n⟩
  · rw [if_neg hlarge]
    exact Holds.gives ⟨c, rfl, hle, hbytes⟩ fun h => absurd h hlarge

omit [DecidableEq ι] [Inhabited α] in
theorem shrinkToFit_gives (h : Holds T (s i) (m i)) :
    Gives T ((BufferOp.shrinkToFit i : BufferOp ι α).Fits T s) ((s i).shrinkToFit T) (m i) := by
  obtain ⟨c, hs, hle, hbytes⟩ := h
  obtain ⟨c', hshrink, hle', hbytes'⟩ := shrinkToFit_ofList T hle hbytes
  rw [hs, hshrink]
  exact Holds.gives ⟨c', rfl, hle', hbytes'⟩ trivial

/-! An operation on one buffer leaves the others alone. -/

omit [Inhabited α] in
theorem holds_update {b : PageAlignedBuffer α} (h : ∀ j, Holds T (s j) (m j)) (hb : Holds T b l)
    (j : ι) : Holds T (update s i b j) (update m i l j) := by
  rcases eq_or_ne j i with rfl | hj
  · rwa [update_self, update_self]
  · rw [update_of_ne hj, update_of_ne hj]
    exact h j

omit [Inhabited α] in
theorem Gives.update {r : Option (PageAlignedBuffer α)} (hr : Gives T P r l)
    (h : ∀ j, Holds T (s j) (m j)) :
    ((r.map (update s i)).isSome ↔ P) ∧
      ∀ s', r.map (update s i) = some s' →
        ∀ j, Holds T (s' j) (update m i l j) := by
  refine ⟨by rw [Option.isSome_map, hr.isSome_iff], fun s' hs' => ?_⟩
  obtain ⟨b, hb, rfl⟩ := Option.map_eq_some_iff.mp hs'
  exact holds_update h (hr.holds b hb)

/-- **One operation** is defined exactly if it fits, and does to the buffers what it is to do to
the lists. -/
theorem bufferStep_spec (h : ∀ i, Holds T (s i) (m i)) (op : BufferOp ι α) :
    ((bufferStep T s op).isSome ↔ op.Fits T s) ∧
      ∀ s', bufferStep T s op = some s' → ∀ i, Holds T (s' i) (listStep m op i) := by
  cases op with
  | assign i c => exact (make_gives T c).update h
  | emplaceBack i x => exact (emplaceBack_gives (h i) x).update h
  | resize i n => exact (resize_gives (h i) n).update h
  | reserve i n =>
    have hstep := (reserve_gives (h i) n).update (i := i) h
    rwa [update_eq_self] at hstep
  | shrinkToFit i =>
    have hstep := (shrinkToFit_gives (h i)).update (i := i) h
    rwa [update_eq_self] at hstep
  | free i =>
    refine ⟨iff_of_true rfl trivial, fun s' hs' => ?_⟩
    obtain rfl := Option.some.inj hs'
    exact holds_update h (holds_nil T)
  | move i j =>
    refine ⟨iff_of_true rfl trivial, fun s' hs' => ?_⟩
    obtain rfl := Option.some.inj hs'
    rw [listStep]
    split
    · exact h
    · exact holds_update (holds_update h (h i)) (holds_nil T)

/-- After every operation each buffer has the elements of its list, and no more than its
capacity. -/
def BehavesLikeLists (T : ElementType) (ops : List (BufferOp ι α)) : Prop :=
  ∀ done, done <+: ops → ∃ s, Run.exec (bufferStep T) (fun _ => {}) done = some s ∧
    ∀ i, (s i).size ≤ (s i).capacity ∧
      (s i).elements = (done.foldl listStep (fun _ => []) i).map some

/-- **The buffers behave like lists** exactly as long as the operations fit. -/
theorem buffers_behave_iff (T : ElementType) (ops : List (BufferOp ι α)) :
    BehavesLikeLists T ops ↔
      Run.AllSteps (bufferStep T) (fun s op => op.Fits T s) (fun _ => {}) ops := by
  have hstart : ∀ i : ι, Holds T ((fun _ => {} : ι → PageAlignedBuffer α) i) [] :=
    fun _ => holds_nil T
  -- a run is defined exactly as long as its operations fit
  have hiff : ∀ done : List (BufferOp ι α), (Run.exec (bufferStep T) (fun _ => {}) done).isSome ↔
      Run.AllSteps (bufferStep T) (fun s op => op.Fits T s) (fun _ => {}) done := by
    intro done
    apply Run.exec_isSome_iff_allSteps
      (I := fun s : ι → PageAlignedBuffer α => ∃ m : ι → List α, ∀ i, Holds T (s i) (m i))
    · rintro s op s' ⟨m, hm⟩ hs'
      exact ⟨_, (bufferStep_spec hm op).2 s' hs'⟩
    · rintro s op ⟨m, hm⟩
      exact (bufferStep_spec hm op).1
    · exact ⟨_, hstart⟩
  constructor
  · intro h
    obtain ⟨s, hs, -⟩ := h ops prefix_rfl
    rw [← hiff, hs]
    rfl
  · rintro hfits done ⟨rest, rfl⟩
    rw [← hiff, Run.exec_append] at hfits
    obtain ⟨s', hs'⟩ := Option.isSome_iff_exists.mp hfits
    obtain ⟨s, hs, -⟩ := Option.bind_eq_some_iff.mp hs'
    have hholds : ∀ i, Holds T (s i) (done.foldl listStep (fun _ => []) i) := by
      refine Run.exec_simulation (C := fun _ _ => True)
        (R := fun (s : ι → PageAlignedBuffer α) (m : ι → List α) => ∀ i, Holds T (s i) (m i))
        ?_ hstart (Run.allSteps_true _ _) hs
      intro s m op s' hm _ hs'
      exact (bufferStep_spec hm op).2 s' hs'
    refine ⟨s, hs, fun i => ?_⟩
    obtain ⟨c, hc, hle, -⟩ := hholds i
    rw [hc]
    exact ⟨hle, elements_ofList _ c⟩

/-- `int`. -/
def intType : ElementType := ⟨4, true, by decide, by decide⟩

/-- A buffer that was just constructed has no capacity, and twice 0 is 0: the first element is
written behind the memory. -/
theorem emplaceBack_empty_overflows :
    Run.exec (bufferStep intType) (fun _ => {}) [BufferOp.emplaceBack () (7 : ℤ)] = none ∧
      ¬ BehavesLikeLists intType [BufferOp.emplaceBack () (7 : ℤ)] := by
  have hnone : Run.exec (bufferStep intType) (fun _ => {}) [BufferOp.emplaceBack () (7 : ℤ)] =
      none := rfl
  refine ⟨hnone, fun h => ?_⟩
  obtain ⟨s, hs, -⟩ := h _ prefix_rfl
  rw [hnone] at hs
  cases hs

end Runs

end HedgeDB
