/-
HedgeDB/KeyOwnership.lean

Any number of key objects with one heap (`include/key.h`): value semantics and unique
ownership over every sequence of operations.

A label says which operation is carried out on which objects, what the memory of a new
object holds before its constructor runs, and which address `new` returns.  A step has no
result when it deletes or accesses a buffer that it must not, so that a run with a result
frees nothing twice and reads nothing that is gone.  `Allowed` is what the language asks
for: constructors run on free memory, everything else on live objects.

`valueNext` is the meaning of the operations on byte strings.  `Represents` relates a state
to the byte strings of its objects, each of which owns its buffer alone; every allowed step
has a result and keeps it.  A long key that is moved to itself is empty afterwards.
-/
import HedgeDB.KeyStorage

namespace HedgeDB

open KeyStorage OwnedHeap Run Function Option

/-- The objects, by the place they are in, and the heap. -/
structure KeyState where
  keys : ℕ → Option KeyStorage
  heap : KeyHeap

/-- The bytes a key is made from: the size of a span is a `size_t`. -/
abbrev KeyBytes := { bytes : Bytes // bytes.length < 2 ^ 64 }

/-- The operations.  `raw` is the memory of a new object and `addr` what `new` returns. -/
inductive KeyOp
  | default (dst : ℕ)
  | ofBytes (dst : ℕ) (raw : KeyStorage) (addr : ℕ) (bytes : KeyBytes)
  | makeWithLength (dst : ℕ) (raw : KeyStorage) (addr : ℕ) (uninit : KeyBytes)
  | fill (dst : ℕ) (bytes : Bytes)
  | copyConstruct (dst src : ℕ) (raw : KeyStorage) (addr : ℕ)
  | moveConstruct (dst src : ℕ) (raw : KeyStorage)
  | copyAssign (dst src addr : ℕ)
  | moveAssign (dst src : ℕ)
  | destroy (dst : ℕ)

namespace KeyState

def empty : KeyState := ⟨fun _ => none, Heap.empty⟩

def set (m : KeyState) (i : ℕ) (o : Option KeyStorage) (heap : KeyHeap) : KeyState :=
  ⟨update m.keys i o, heap⟩

def apply (m : KeyState) : KeyOp → Option KeyState
  | .default dst => some (m.set dst (some .zero) m.heap)
  | .ofBytes dst raw addr bytes =>
      (raw.init m.heap addr bytes.1).map fun r => m.set dst (some r.1) r.2
  | .makeWithLength dst raw addr uninit =>
      let r := raw.makeWithLength m.heap addr uninit.1
      some (m.set dst (some r.1) r.2)
  | .fill dst bytes =>
      (m.keys dst).bind fun k => (k.fill m.heap bytes).map fun r => m.set dst (some r.1) r.2
  | .copyConstruct dst src raw addr =>
      (m.keys src).bind fun s =>
        (raw.copy false s m.heap addr).map fun r => m.set dst (some r.1) r.2
  | .moveConstruct dst src raw =>
      (m.keys src).bind fun s =>
        (raw.move false s m.heap).map fun r =>
          (m.set src (some r.2.1) r.2.2).set dst (some r.1) r.2.2
  | .copyAssign dst src addr =>
      (m.keys dst).bind fun d => (m.keys src).bind fun s =>
        -- the guard of `operator=`
        if dst = src then some m
        else (d.copy true s m.heap addr).map fun r => m.set dst (some r.1) r.2
  | .moveAssign dst src =>
      (m.keys dst).bind fun d => (m.keys src).bind fun s =>
        if dst = src then (d.moveSelf m.heap).map fun r => m.set dst (some r.1) r.2
        else (d.move true s m.heap).map fun r =>
          (m.set src (some r.2.1) r.2.2).set dst (some r.1) r.2.2
  | .destroy dst =>
      (m.keys dst).bind fun d => (d.freeIfLongStr m.heap).map fun r => m.set dst none r.2

/-- What the language and the allocator guarantee when the operation is carried out. -/
def Allowed (m : KeyState) : KeyOp → Prop
  | .default dst => m.keys dst = none
  | .ofBytes dst _ addr bytes =>
      m.keys dst = none ∧ (maxInlineLength < bytes.1.length → Fresh m.heap addr)
  | .makeWithLength dst _ addr uninit =>
      m.keys dst = none ∧ (maxInlineLength < uninit.1.length → Fresh m.heap addr)
  | .fill dst bytes => ∃ k ∈ m.keys dst, k.size = bytes.length
  | .copyConstruct dst src _ addr =>
      m.keys dst = none ∧ ∃ s ∈ m.keys src, s.isLongStr = true → Fresh m.heap addr
  | .moveConstruct dst src _ => m.keys dst = none ∧ (m.keys src).isSome
  | .copyAssign dst src addr =>
      -- the destination has been released when `new` is called
      ∃ d ∈ m.keys dst, ∃ s ∈ m.keys src, dst ≠ src → s.isLongStr = true →
        ∀ r ∈ d.freeIfLongStr m.heap, Fresh r.2 addr
  | .moveAssign dst src => (m.keys dst).isSome ∧ (m.keys src).isSome
  | .destroy dst => (m.keys dst).isSome

instance decidableAllowed (m : KeyState) : ∀ op, Decidable (m.Allowed op)
  | .default _ => inferInstanceAs (Decidable (_ = none))
  | .ofBytes _ _ _ _ => inferInstanceAs (Decidable (_ ∧ (_ → _)))
  | .makeWithLength _ _ _ _ => inferInstanceAs (Decidable (_ ∧ (_ → _)))
  | .fill dst _ => inferInstanceAs (Decidable (∃ k ∈ m.keys dst, _))
  | .copyConstruct _ src _ _ => inferInstanceAs (Decidable (_ ∧ ∃ s ∈ m.keys src, _ → _))
  | .moveConstruct _ _ _ => inferInstanceAs (Decidable (_ ∧ _))
  | .copyAssign dst src addr =>
      inferInstanceAs (Decidable (∃ d ∈ m.keys dst, ∃ s ∈ m.keys src, dst ≠ src →
        s.isLongStr = true → ∀ r ∈ d.freeIfLongStr m.heap, Fresh r.2 addr))
  | .moveAssign _ _ => inferInstanceAs (Decidable (_ ∧ _))
  | .destroy _ => inferInstanceAs (Decidable (_ = true))

/-- The buffer of the object at a place. -/
def owner (m : KeyState) (i : ℕ) : Option ℕ := (m.keys i).bind KeyStorage.owned

end KeyState

/-- The byte strings of the objects. -/
abbrev KeyValues := ℕ → Option Bytes

/-- The meaning of the operations: a long key whose value is moved away is empty. -/
def valueNext (vals : KeyValues) : KeyOp → KeyValues
  | .default dst => update vals dst (some [])
  | .ofBytes dst _ _ bytes => update vals dst (some bytes.1)
  | .makeWithLength dst raw _ uninit => update vals dst (some (raw.leftIn uninit.1))
  | .fill dst bytes => update vals dst (some bytes)
  | .copyConstruct dst src _ _ | .copyAssign dst src _ => update vals dst (vals src)
  | .moveConstruct dst src _ =>
      update (update vals src ((vals src).map movedFrom)) dst (vals src)
  | .moveAssign dst src =>
      if dst = src then update vals dst ((vals dst).map movedFrom)
      else
        update (update vals src ((vals src).map movedFrom)) dst
          (vals src)
  | .destroy dst => update vals dst none

/-- The byte strings after a sequence of operations. -/
def valuesAfter (ops : List KeyOp) : KeyValues := ops.foldl valueNext fun _ => none

namespace KeyState

/-- Every object holds its byte string. -/
def Reads (m : KeyState) (vals : KeyValues) : Prop :=
  ∀ i, Rel (KeyStorage.Holds m.heap.cells) (m.keys i) (vals i)

/-- Besides, every buffer has one of the objects as its owner. -/
structure Represents (m : KeyState) (vals : KeyValues) : Prop where
  reads : m.Reads vals
  owned : m.heap.Owned m.owner

variable {m : KeyState} {vals : KeyValues} {i dst src addr : ℕ} {k d s raw : KeyStorage}
  {v : Bytes} {heap' : KeyHeap}

theorem represents_empty : empty.Represents fun _ => none := ⟨fun _ => .none, Heap.owned_empty⟩

/-! ### Changing one object -/

@[simp] theorem set_keys_self (o : Option KeyStorage) : (m.set i o heap').keys i = o :=
  update_self ..

theorem set_keys_of_ne (o : Option KeyStorage) {j : ℕ} (hj : j ≠ i) :
    (m.set i o heap').keys j = m.keys j :=
  update_of_ne hj ..

theorem set_set (o o' : Option KeyStorage) (heap : KeyHeap) :
    (m.set i o heap').set i o' heap = m.set i o' heap := by
  rw [set, set, set, update_idem]

theorem update_update_self {α : Type*} {f : ℕ → α} {x y z : α} (h : dst ≠ src) :
    update (update (update f dst x) src y) dst z =
      update (update f src y) dst z := by
  rw [update_comm h, update_idem]

variable {o : Option KeyStorage}

theorem set_set_self {o' p : Option KeyStorage} {heap₁ heap₂ : KeyHeap} (h : dst ≠ src) :
    ((m.set dst o heap').set src p heap₁).set dst o' heap₂ =
      (m.set src p heap₁).set dst o' heap₂ := by
  rw [set, set, set, set, set, update_update_self h]

theorem owner_set (o : Option KeyStorage) :
    (m.set i o heap').owner = update m.owner i (o.bind KeyStorage.owned) := by
  funext j
  by_cases hj : j = i
  · rw [hj, owner, set_keys_self, update_self]
  · rw [owner, set_keys_of_ne o hj, update_of_ne hj, owner]

theorem owner_eq (hk : m.keys i = some k) : m.owner i = k.owned := by
  rw [owner, hk, bind_some]

theorem owner_eq_none (hk : m.keys i = none) : m.owner i = none := by
  rw [owner, hk, bind_none]

theorem owner_set_eq_self (hi : m.owner i = none) (ho : o.bind KeyStorage.owned = none) :
    (m.set i o heap').owner = m.owner := by
  rw [owner_set, ho, ← hi, update_eq_self]

theorem Reads.value (h : m.Reads vals) (hk : m.keys i = some k) :
    ∃ v, vals i = some v ∧ k.Holds m.heap.cells v := by
  have hrel := h i
  rw [hk] at hrel
  generalize vals i = w at hrel
  cases hrel with
  | some hholds => exact ⟨_, rfl, hholds⟩

theorem Reads.value_none (h : m.Reads vals) (hk : m.keys i = none) : vals i = none := by
  have hrel := h i
  rw [hk] at hrel
  generalize vals i = w at hrel
  cases hrel with
  | none => rfl

theorem Reads.set (h : m.Reads vals) {w : Option Bytes}
    (hi : Rel (KeyStorage.Holds heap'.cells) o w)
    (hframe : ∀ j, j ≠ i → ∀ a, m.owner j = some a → heap'.cells a = m.heap.cells a) :
    (m.set i o heap').Reads (update vals i w) := by
  intro j
  by_cases hj : j = i
  · rw [hj, set_keys_self, update_self]
    exact hi
  · rw [set_keys_of_ne o hj, update_of_ne hj]
    show Rel (KeyStorage.Holds heap'.cells) (m.keys j) (vals j)
    cases hk : m.keys j with
    | none =>
      rw [h.value_none hk]
      exact .none
    | some k =>
      obtain ⟨v, hv, hholds⟩ := h.value hk
      rw [hv]
      exact .some (hholds.frame fun a ha => hframe j hj a ((owner_eq hk).trans ha))

/-! ### Constructing, moving and releasing -/

theorem Represents.build (h : m.Represents vals) (hdst : m.keys dst = none)
    (hbuilt : KeyStorage.Built m.heap v d heap') :
    (m.set dst (some d) heap').Represents (update vals dst (some v)) := by
  cases hbuilt with
  | inline hlen hholds =>
    refine ⟨h.reads.set (.some hholds) fun _ _ _ _ => rfl, ?_⟩
    rw [owner_set_eq_self (o := some d) (owner_eq_none hdst) (hholds.owned_short hlen)]
    exact h.owned
  | @boxed a ha howned hholds =>
    refine ⟨h.reads.set (.some hholds) fun j _ b hb => Heap.alloc_cells_of_ne ?_, ?_⟩
    · -- the new buffer is nobody's
      rintro rfl
      obtain ⟨c, hc⟩ := h.owned.allocated hb
      rw [ha] at hc
      cases hc
    · rw [owner_set, bind_some, howned]
      exact h.owned.alloc (owner_eq_none hdst) ha

/-- **A key is moved** to free memory. -/
theorem Represents.move (h : m.Represents vals) (hdst : m.keys dst = none)
    (hsrc : m.keys src = some s) (raw : KeyStorage) :
    ((m.set src (some (raw.moveInto s).2) m.heap).set dst (some (raw.moveInto s).1)
        m.heap).Represents
      (update (update vals src ((vals src).map movedFrom)) dst
        (vals src)) := by
  obtain ⟨v, hv, hholds⟩ := h.reads.value hsrc
  obtain ⟨hd, hs, hdowned, hsowned⟩ := moveInto_spec raw hholds
  rw [hv]
  refine ⟨(h.reads.set (.some hs) fun _ _ _ _ => rfl).set (.some hd) fun _ _ _ _ => rfl, ?_⟩
  rw [owner_set, owner_set, bind_some, bind_some, hdowned, hsowned]
  show m.heap.Owned _
  cases hown : s.owned with
  | none =>
    have hsame : update (update m.owner src none) dst none = m.owner := by
      rw [← (owner_eq hsrc).trans hown, update_eq_self, (owner_eq hsrc).trans hown,
        ← owner_eq_none hdst, update_eq_self]
    rw [hsame]
    exact h.owned
  | some a => exact h.owned.transfer ((owner_eq hsrc).trans hown) (owner_eq_none hdst)

/-- **A key is released**: its memory is free, and holds what a moved-from key holds. -/
theorem Represents.release (h : m.Represents vals) (hk : m.keys i = some k) :
    ∃ k' heap', k.freeIfLongStr m.heap = some (k', heap') ∧ k'.isLongStr = false ∧
      (∀ v, vals i = some v → k'.Holds heap'.cells (movedFrom v)) ∧
      (m.set i none heap').Represents (update vals i none) := by
  obtain ⟨v, hv, hholds⟩ := h.reads.value hk
  have howner := owner_eq hk
  by_cases hlen : maxInlineLength < v.length
  · -- the buffer of the key is deleted, and it is no other key's
    obtain ⟨howned, -, -⟩ := hholds.owned_long hlen
    obtain ⟨hnone, -⟩ | ⟨-, hflag, hfree⟩ := k.freeIfLongStr_cases m.heap
    · rw [howned] at hnone
      cases hnone
    obtain ⟨heap', hheap, hown, hother⟩ := h.owned.free (howner.trans howned)
    refine ⟨_, heap', by rw [hfree, hheap, map_some], ?_, fun w hw => ?_, ?_, ?_⟩
    · exact isLongStr_of_short (hflag.trans_le (Nat.zero_le _))
    · obtain rfl : v = w := some.inj (hv.symm.trans hw)
      rw [movedFrom, if_pos hlen]
      exact holds_nil hflag
    · refine h.reads.set .none fun j hj a ha => hother a ?_
      rintro rfl
      exact hj (h.owned.unique ha (howner.trans howned))
    · rw [owner_set]
      exact hown
  · -- an inline key owns nothing
    have hnone := hholds.owned_short (Nat.not_lt.mp hlen)
    obtain ⟨-, hfree⟩ | ⟨howned, -, -⟩ := k.freeIfLongStr_cases m.heap
    · refine ⟨k, m.heap, hfree, ?_, fun w hw => ?_, ?_, ?_⟩
      · exact Bool.eq_false_iff.mpr fun hlong => hlen (hholds.isLongStr.mp hlong)
      · obtain rfl : v = w := some.inj (hv.symm.trans hw)
        rw [movedFrom, if_neg hlen]
        exact hholds
      · exact h.reads.set .none fun _ _ _ _ => rfl
      · rw [owner_set_eq_self (howner.trans hnone) rfl]
        exact h.owned
    · rw [hnone] at howned
      cases howned

/-- **The bytes of a key are overwritten** through `data()`. -/
theorem Represents.fill (h : m.Represents vals) (hk : m.keys i = some k) {bytes : Bytes}
    (hsize : k.size = bytes.length) :
    ∃ k' heap', k.fill m.heap bytes = some (k', heap') ∧
      (m.set i (some k') heap').Represents (update vals i (some bytes)) := by
  obtain ⟨v, -, hholds⟩ := h.reads.value hk
  have howner := owner_eq hk
  have hvlen : v.length = bytes.length := hholds.reads.1.symm.trans hsize
  cases hholds with
  | short hlen hflag hbytes =>
    have hshort := isLongStr_of_short (hflag.trans_le hlen)
    have hlen' : bytes.length ≤ maxInlineLength := hvlen ▸ hlen
    have hflag' : (k.setInline bytes hlen').flagByte = bytes.length := by
      rw [flagByte_setInline, hflag, hvlen]
    have hown' : (k.setInline bytes hlen').owned = none :=
      owned_of_short (isLongStr_of_short (hflag'.trans_le hlen'))
    refine ⟨k.setInline bytes hlen', m.heap, ?_, ?_, ?_⟩
    · rw [KeyStorage.fill, if_neg (by rw [hshort]; exact Bool.false_ne_true), dif_pos hlen']
    · exact h.reads.set (.some (.short hlen' hflag' (take_setInline ..)))
        fun _ _ _ _ => rfl
    · rw [owner_set_eq_self (o := some (k.setInline bytes hlen'))
        (howner.trans (owned_of_short hshort)) hown']
      exact h.owned
  | long hlen hflag hlong hbuf hcell =>
    obtain ⟨n, hn⟩ := hcell
    have hk' := isLongStr_of_long hflag
    have howned := owned_of_long hk' hbuf
    refine ⟨k, m.heap.overwrite k.buf n bytes, ?_, ?_, ?_⟩
    · rw [KeyStorage.fill, if_pos hk', fillBuffer_eq hn hvlen, map_some]
    · refine h.reads.set (.some (.long (hvlen ▸ hlen) hflag (hlong.trans hvlen) hbuf
        ⟨n, Heap.overwrite_cells_self⟩)) fun j hj a ha => Heap.overwrite_cells_of_ne ?_
      rintro rfl
      exact hj (h.owned.unique ha (howner.trans howned))
    · rw [owner_set, bind_some, ← howner, update_eq_self]
      exact h.owned.overwrite hn

/-! ### Every step and every run -/

/-- **The step.**  An allowed operation has a result, and the byte strings follow it. -/
theorem represents_apply (h : m.Represents vals) {op : KeyOp} (hop : m.Allowed op) :
    ∃ m', m.apply op = some m' ∧ m'.Represents (valueNext vals op) := by
  cases op with
  | default dst =>
    exact ⟨_, rfl, h.build hop (.inline (Nat.zero_le _) holds_zero)⟩
  | ofBytes dst raw addr bytes =>
    obtain ⟨d, heap', hinit, hbuilt⟩ := init_spec raw bytes.2 hop.2
    exact ⟨_, by rw [apply, hinit, map_some], h.build hop.1 hbuilt⟩
  | makeWithLength dst raw addr uninit =>
    exact ⟨_, rfl, h.build hop.1 (makeWithLength_spec uninit.2 hop.2)⟩
  | fill dst bytes =>
    obtain ⟨k, hk, hsize⟩ := hop
    obtain ⟨k', heap', hfill, h'⟩ := h.fill hk hsize
    exact ⟨_, by rw [apply, mem_def.mp hk, bind_some, hfill, map_some], h'⟩
  | copyConstruct dst src raw addr =>
    obtain ⟨hdst, s, hs, hfresh⟩ := hop
    obtain ⟨v, hv, hholds⟩ := h.reads.value hs
    obtain ⟨d, heap', hcopy, hbuilt⟩ := copyInto_spec raw hholds hfresh
    refine ⟨m.set dst (some d) heap', ?_, ?_⟩
    · rw [apply, mem_def.mp hs, bind_some]
      show ((raw.copyInto s m.heap addr).map _) = _
      rw [hcopy, map_some]
    · rw [valueNext, hv]
      exact h.build hdst hbuilt
  | moveConstruct dst src raw =>
    obtain ⟨hdst, hsrc⟩ := hop
    obtain ⟨s, hs⟩ := isSome_iff_exists.mp hsrc
    exact ⟨_, by rw [apply, hs, bind_some]; rfl, h.move hdst hs raw⟩
  | copyAssign dst src addr =>
    obtain ⟨d, hd, s, hs, hfresh⟩ := hop
    by_cases hself : dst = src
    · refine ⟨m, ?_, ?_⟩
      · rw [apply, mem_def.mp hd, mem_def.mp hs, bind_some,
          bind_some, if_pos hself]
      · rw [valueNext, hself, update_eq_self]
        exact h
    · -- the destination is released, and then a copy is constructed in it
      obtain ⟨d', heap₁, hfree, -, -, h₁⟩ := h.release hd
      have hs₁ : (m.set dst none heap₁).keys src = some s :=
        (set_keys_of_ne _ (Ne.symm hself)).trans hs
      obtain ⟨v, hv, hholds⟩ := h₁.reads.value hs₁
      rw [update_of_ne (Ne.symm hself)] at hv
      obtain ⟨e, heap₂, hcopy, hbuilt⟩ := copyInto_spec d' hholds
        fun hlong => hfresh hself hlong _ hfree
      have h₂ := h₁.build (set_keys_self _) hbuilt
      rw [set_set, update_idem] at h₂
      refine ⟨_, ?_, by rw [valueNext, hv]; exact h₂⟩
      rw [apply, mem_def.mp hd, mem_def.mp hs, bind_some, bind_some,
        if_neg hself, KeyStorage.copy, if_pos rfl, hfree, bind_some]
      show (d'.copyInto s heap₁ addr).map _ = _
      rw [show d'.copyInto s heap₁ addr = some (e, heap₂) from hcopy, map_some]
  | moveAssign dst src =>
    obtain ⟨hdst, hsrc⟩ := hop
    obtain ⟨d, hd⟩ := isSome_iff_exists.mp hdst
    obtain ⟨s, hs⟩ := isSome_iff_exists.mp hsrc
    obtain ⟨d', heap₁, hfree, hshort, hmoved, h₁⟩ := h.release hd
    by_cases hself : dst = src
    · -- what is left of the released key is what it is moved to
      obtain ⟨v, hv, hholds⟩ := h.reads.value hd
      have hleft := hmoved v hv
      have hlen : (movedFrom v).length ≤ maxInlineLength := by
        by_contra hlt
        have hlong := hleft.isLongStr.mpr (Nat.lt_of_not_le hlt)
        exact Bool.false_ne_true (hshort.symm.trans hlong)
      have h₂ := h₁.build (set_keys_self _) (.inline hlen hleft)
      rw [set_set, update_idem] at h₂
      refine ⟨_, ?_, by rw [valueNext, if_pos hself, hv]; exact h₂⟩
      rw [apply, hd, hs, bind_some, bind_some, if_pos hself, KeyStorage.moveSelf,
        hfree, map_some, map_some,
        if_neg (by rw [hshort]; exact Bool.false_ne_true)]
      rfl
    · have hs₁ : (m.set dst none heap₁).keys src = some s :=
        (set_keys_of_ne _ (Ne.symm hself)).trans hs
      have h₂ := h₁.move (set_keys_self _) hs₁ d'
      rw [update_of_ne (Ne.symm hself), update_update_self hself, set_set_self hself] at h₂
      refine ⟨_, ?_, by rw [valueNext, if_neg hself]; exact h₂⟩
      rw [apply, hd, hs, bind_some, bind_some, if_neg hself, KeyStorage.move,
        if_pos rfl, hfree]
      rfl
  | destroy dst =>
    obtain ⟨d, hd⟩ := isSome_iff_exists.mp hop
    obtain ⟨d', heap₁, hfree, -, -, h₁⟩ := h.release hd
    exact ⟨_, by rw [apply, hd, bind_some, hfree, map_some], h₁⟩

/-- **The run.** -/
theorem represents_run {ops : List KeyOp} (hops : AllSteps apply Allowed empty ops) :
    ∃ m, exec apply empty ops = some m ∧ m.Represents (valuesAfter ops) := by
  have hstep : ∀ m vals op, Represents m vals → Allowed m op →
      ∃ m', apply m op = some m' ∧ m'.Represents (valueNext vals op) :=
    fun _ _ _ h hop => represents_apply h hop
  exact exec_progress hstep represents_empty hops

/-- The object at a place has the buffer with a number. -/
def OwnsBuffer (m : KeyState) (i n : ℕ) : Prop :=
  ∃ a bytes, m.owner i = some a ∧ m.heap.cells a = some (n, bytes)

/-- **Every key owns its bytes alone.**  Whatever is done to any number of keys, every
operation has a result, so that no buffer is deleted twice or used when it is gone.  The
live keys are those of `valuesAfter`, and they read back as it says.  A long key has one
buffer, with its bytes, which is no other key's, and a short one has none.  Every buffer that was
allocated is with one key and has not been freed, or it is with none and has been freed
once; when no key is left, every buffer has been freed once. -/
theorem key_value_semantics (ops : List KeyOp) (hops : AllSteps apply Allowed empty ops) :
    ∃ m, exec apply empty ops = some m ∧
      (∀ i, (m.keys i).isSome ↔ (valuesAfter ops i).isSome) ∧
      (∀ i k v, m.keys i = some k → valuesAfter ops i = some v →
        k.size = v.length ∧ k.asBytes m.heap = some v ∧
        (v.length ≤ maxInlineLength → k.owned = none) ∧
        (maxInlineLength < v.length →
          k.owned = some k.buf ∧ (∃ n, m.heap.cells k.buf = some (n, v)) ∧
          ∀ j k', m.keys j = some k' → k'.owned = some k.buf → j = i)) ∧
      (∀ n < m.heap.count,
        (m.heap.freed.count n = 0 ∧ ∃! i, m.OwnsBuffer i n) ∨
          (m.heap.freed.count n = 1 ∧ ∀ i, ¬ m.OwnsBuffer i n)) ∧
      ((∀ i, m.keys i = none) → ∀ n < m.heap.count, m.heap.freed.count n = 1) := by
  obtain ⟨m, hrun, h⟩ := represents_run hops
  have hbuffers : ∀ n < m.heap.count, (m.heap.freed.count n = 0 ∧ ∃! i, m.OwnsBuffer i n) ∨
      (m.heap.freed.count n = 1 ∧ ∀ i, ¬ m.OwnsBuffer i n) := by
    intro n hn
    refine (h.owned.freed_once hn).imp_right fun ⟨hcount, hnone⟩ => ⟨hcount, ?_⟩
    rintro i ⟨a, bytes, howner, hcell⟩
    exact hnone i a bytes howner hcell
  refine ⟨m, hrun, fun i => ?_, fun i k v hk hv => ?_, hbuffers, fun hnone n hn => ?_⟩
  · cases hk : m.keys i with
    | none => rw [h.reads.value_none hk]; exact Iff.rfl
    | some k =>
        obtain ⟨v, hv, -⟩ := h.reads.value hk
        rw [hv]
        exact iff_of_true rfl rfl
  · obtain ⟨w, hw, hholds⟩ := h.reads.value hk
    obtain rfl : w = v := some.inj (hw.symm.trans hv)
    refine ⟨hholds.reads.1, hholds.reads.2, hholds.owned_short, fun hlen => ?_⟩
    obtain ⟨howned, -, hcell⟩ := hholds.owned_long hlen
    refine ⟨howned, hcell, fun j k' hk' howned' => ?_⟩
    exact h.owned.unique ((owner_eq hk').trans howned') ((owner_eq hk).trans howned)
  · rcases hbuffers n hn with ⟨-, i, ⟨a, bytes, howner, -⟩, -⟩ | ⟨hcount, -⟩
    · rw [owner_eq_none (hnone i)] at howner
      cases howner
    · exact hcount

theorem length_longBytes : (List.replicate 40 (7 : UInt8)).length < 2 ^ 64 := by
  rw [List.length_replicate]
  decide

def longBytes : KeyBytes := ⟨List.replicate 40 7, length_longBytes⟩

/-- A long key is copied, the copy moved over a short key, and the result copied back over
the first, whose buffer has just been deleted when `new` returns its address again. -/
def moveRun : List KeyOp :=
  [.ofBytes 0 .zero 4096 longBytes, .copyConstruct 1 0 .zero 8192, .default 2, .moveAssign 2 1,
    .copyAssign 0 2 4096]

theorem key_value_semantics_moveRun :
    AllSteps apply Allowed empty moveRun ∧
      ∃ m, exec apply empty moveRun = some m ∧
        ∀ k, m.keys 1 = some k → k.size = 0 ∧ k.asBytes m.heap = some [] := by
  have hops : AllSteps apply Allowed empty moveRun := by decide +kernel
  obtain ⟨m, hrun, -, hreads, -⟩ := key_value_semantics moveRun hops
  refine ⟨hops, m, hrun, fun k hk => ?_⟩
  obtain ⟨hsize, hbytes, -⟩ := hreads 1 k [] hk (by decide)
  exact ⟨hsize, hbytes⟩

end KeyState

end HedgeDB
