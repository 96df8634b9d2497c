/-
HedgeDB/IoCtx.lean

Requests of one I/O context (`include/io/io_ctx.h`, the post-run hook of
`src/io/io_executor.cc`).

A request that is handed in waits in a queue.  `submit_and_wait` moves requests from the
queue to the submission ring, as many as there is room for, and remembers each one under a
number from a 64-bit counter, which it also writes into the entry of the ring.  `reap_cq`
resumes the request that is remembered under the number of a completion.

The kernel is a part of the model: it takes entries of the ring in order when it is entered,
and completes what it has taken in any order and at any time, each entry once.  What it takes
and completes during a call is part of the label of a step.  Requests are numbered as they
come; these numbers and the records of what was submitted, completed and resumed are not in
the source.

While no number is given out that a request in flight has, every request is resumed with its
own result (`io_requests_exact`).  This is so for the first `2 ^ 64` requests
(`freshIds_of_requests`), whatever number the uninitialised counter starts with.  Behind them
a request that was never completed can lose its place to another one (`io_request_lost`).
-/
import Mathlib.Data.List.Nodup
import Mathlib.Data.List.Perm.Basic
import Mathlib.Data.List.Range
import HedgeDB.Run
import HedgeDB.Types

namespace HedgeDB

open List Function

/-! ### The rings and the context -/

/-- What `io_uring_queue_init` gives for a queue depth: a submission ring of at least that many
entries, and never more than `IORING_MAX_ENTRIES`. -/
structure IoUring where
  queueDepth : ℕ
  sqEntries : ℕ
  queueDepth_pos : 0 < queueDepth
  le_sqEntries : queueDepth ≤ sqEntries
  sqEntries_le : sqEntries ≤ 32768

/-- A request under its number: an entry of the submission ring, or of `_in_flight`. -/
structure IoEntry where
  id : ℕ
  request : ℕ
  deriving DecidableEq, Repr

/-- A completion.  The request is not in it. -/
structure Cqe where
  id : ℕ
  res : ℤ
  request : ℕ
  deriving DecidableEq, Repr

def Cqe.entry (c : Cqe) : IoEntry := ⟨c.id, c.request⟩

def Cqe.result (c : Cqe) : ℕ × ℤ := (c.request, c.res)

/-- `io_ctx` with its rings.  `taken` is what the kernel has taken and not completed. -/
structure IoCtx where
  reqId : ℕ
  waitingForIo : List ℕ := []
  inFlight : List IoEntry := []
  sq : List IoEntry := []
  taken : List IoEntry := []
  cq : List Cqe := []
  /-- An entry of `_in_flight` was used that is not there. -/
  faulted : Bool := false
  issued : ℕ := 0
  submitted : List ℕ := []
  completed : List (ℕ × ℤ) := []
  resumed : List (ℕ × ℤ) := []
  deriving DecidableEq, Repr

/-- A call of `io_uring_submit_and_wait`: it fails, or the kernel takes entries from the front of
the ring and completes some that it has taken, each by its position and with its result. -/
structure KernelCall where
  fails : Bool := false
  takes : ℕ := 0
  completes : List (ℕ × ℤ) := []

def IoUring.cqSize (u : IoUring) : ℕ := u.queueDepth * 2 % 2 ^ 32

namespace IoCtx

/-- One completion of `reap_cq`. -/
def resume (s : IoCtx) (c : Cqe) : IoCtx :=
  match s.inFlight.find? fun e => e.id = c.id with
  | none => { s with faulted := true }
  | some e =>
      { s with
        inFlight := s.inFlight.erase e
        resumed := s.resumed ++ [(e.request, c.res)] }

def reapCq (s : IoCtx) : IoCtx := { s.cq.foldl resume s with cq := [] }

/-- The kernel completes the entry at a position. -/
def complete (s : IoCtx) (c : ℕ × ℤ) : IoCtx :=
  match s.taken[c.1]? with
  | none => s
  | some e =>
      { s with
        taken := s.taken.eraseIdx c.1
        cq := s.cq ++ [⟨e.id, c.2, e.request⟩]
        completed := s.completed ++ [(e.request, c.2)] }

/-- The kernel in a call that does not fail. -/
def enter (s : IoCtx) (k : KernelCall) : IoCtx :=
  k.completes.foldl complete
    { s with sq := s.sq.drop k.takes, taken := s.taken ++ s.sq.take k.takes }

def popCount (u : IoUring) (s : IoCtx) : ℕ :=
  let cqeSpaceMargin := toInt32 u.cqSize - (toInt32 s.cq.length + toInt32 s.inFlight.length)
  if cqeSpaceMargin > 0 then
    let sqToSubmit := min (toInt32 ↑(u.sqEntries - s.sq.length)) cqeSpaceMargin
    min sqToSubmit.toNat s.waitingForIo.length
  else 0

/-- One round of the loop of `submit_and_wait`.  `emplace` leaves an entry that is there. -/
def submitOne (s : IoCtx) : IoCtx :=
  match s.waitingForIo with
  | [] => s
  | r :: waiting =>
      { s with
        waitingForIo := waiting
        sq := s.sq ++ [⟨s.reqId, r⟩]
        inFlight :=
          if s.inFlight.any fun e => e.id = s.reqId then s.inFlight
          else s.inFlight ++ [⟨s.reqId, r⟩]
        reqId := (s.reqId + 1) % 2 ^ 64
        submitted := s.submitted ++ [r] }

/-- `submit_and_wait`.  The call comes back with an error, and the context throws, or when there is
a completion to wait for. -/
def submitAndWait (u : IoUring) (k : KernelCall) (s : IoCtx) : Option IoCtx :=
  let s := submitOne^[popCount u s] s
  let waitFor := if s.inFlight.length > 0 then 1 else 0
  if k.fails then some s
  else
    let s := s.enter k
    if waitFor ≤ s.cq.length then some s.reapCq else none

/-- A request joins the queue. -/
def enqueue (s : IoCtx) : IoCtx :=
  { s with waitingForIo := s.waitingForIo ++ [s.issued], issued := s.issued + 1 }

def submitRequest (u : IoUring) (k : KernelCall) (s : IoCtx) : Option IoCtx :=
  let s := s.enqueue
  if s.waitingForIo.length = u.queueDepth then s.submitAndWait u k
  else if s.cq.length > 0 then some s.reapCq
  else some s

end IoCtx

/-- A call of one of the three functions, or a completion between two of them. -/
inductive IoAct where
  | submitRequest (k : KernelCall)
  | submitAndWait (k : KernelCall)
  | reapCq
  | complete (i : ℕ) (res : ℤ)

def ioStep (u : IoUring) (s : IoCtx) : IoAct → Option IoCtx
  | .submitRequest k => s.submitRequest u k
  | .submitAndWait k => s.submitAndWait u k
  | .reapCq => some s.reapCq
  | .complete i res => if i < s.taken.length then some (s.complete (i, res)) else none

/-- How many requests a step moves to the ring. -/
def IoAct.pops (u : IoUring) (s : IoCtx) : IoAct → ℕ
  | .submitRequest _ =>
      if s.enqueue.waitingForIo.length = u.queueDepth then s.enqueue.popCount u else 0
  | .submitAndWait _ => s.popCount u
  | .reapCq => 0
  | .complete _ _ => 0

/-- None of the next `n` numbers belongs to a request in flight. -/
def IoCtx.FreshFor (s : IoCtx) (n : ℕ) : Prop :=
  ∀ i < n, ∀ e ∈ s.inFlight, e.id ≠ (s.reqId + i) % 2 ^ 64

/-- The numbers that a step gives out are not in flight. -/
def IoAct.FreshIds (u : IoUring) (s : IoCtx) (a : IoAct) : Prop := s.FreshFor (a.pops u s)

/-! ### The invariant -/

/-- What holds between the rings and the records, where `cq` is what is left of the completion
queue. -/
structure IoLinked (start : ℕ) (s : IoCtx) (cq : List Cqe) : Prop where
  sound : s.faulted = false
  fifo : s.submitted ++ s.waitingForIo = range s.issued
  nextId : s.reqId = (start + s.submitted.length) % 2 ^ 64
  ids : ∀ e ∈ s.inFlight, e.id = (start + e.request) % 2 ^ 64
  distinct : (s.inFlight.map IoEntry.id).Nodup
  ring : (s.sq ++ s.taken ++ cq.map Cqe.entry).Perm s.inFlight
  parts : (s.inFlight.map IoEntry.request ++ s.resumed.map Prod.fst).Perm s.submitted
  results : s.completed = s.resumed ++ cq.map Cqe.result

structure IoInv (u : IoUring) (start : ℕ) (s : IoCtx) : Prop where
  linked : IoLinked start s s.cq
  room : s.inFlight.length ≤ u.cqSize

/-- What is claimed of a context.  Every request is in one of three places, once; those in the
queue are submitted in the order they came; a request is resumed with a result that the kernel
has given for it, and it gives only one; and completions never outnumber the room for them. -/
structure IoGood (u : IoUring) (s : IoCtx) : Prop where
  sound : s.faulted = false
  parts : (s.waitingForIo ++ s.inFlight.map IoEntry.request ++ s.resumed.map Prod.fst).Perm
    (range s.issued)
  fifo : s.submitted ++ s.waitingForIo = range s.issued
  own : ∀ x ∈ s.resumed, x ∈ s.completed
  once : (s.completed.map Prod.fst).Nodup
  room : s.inFlight.length ≤ u.cqSize
  cq : s.cq.length ≤ s.inFlight.length

variable {n : ℕ}

section Steps

variable {u : IoUring} {start : ℕ} {s s' : IoCtx} {cq : List Cqe} {k : KernelCall}

theorem IoLinked.submitted_nodup (h : IoLinked start s cq) : s.submitted.Nodup := by
  have hrange : (s.submitted ++ s.waitingForIo).Nodup := h.fifo ▸ nodup_range
  exact (nodup_append.mp hrange).1

theorem IoInv.good (h : IoInv u start s) : IoGood u s := by
  have hlink := h.linked
  have hring : (s.sq ++ s.taken ++ s.cq.map Cqe.entry).Perm s.inFlight := hlink.ring
  refine ⟨hlink.sound, ?_, hlink.fifo, ?_, ?_, h.room, ?_⟩
  · rw [← hlink.fifo, append_assoc]
    exact (hlink.parts.append_left _).trans perm_append_comm
  · intro x hx
    rw [hlink.results]
    exact mem_append_left _ hx
  · -- what is in the completion queue is still in flight
    have hrequests : (s.cq.map Cqe.request).Sublist
        ((s.sq ++ s.taken ++ s.cq.map Cqe.entry).map IoEntry.request) := by
      rw [map_append, map_map]
      exact sublist_append_right _ _
    have hall : (((s.sq ++ s.taken ++ s.cq.map Cqe.entry).map IoEntry.request) ++
        s.resumed.map Prod.fst).Nodup := by
      have hperm := ((hring.map IoEntry.request).append_right (s.resumed.map Prod.fst)).trans
        hlink.parts
      exact hperm.nodup_iff.mpr hlink.submitted_nodup
    have hsub : (s.cq.map Cqe.request ++ s.resumed.map Prod.fst).Nodup :=
      hall.sublist (hrequests.append (Sublist.refl _))
    have hfst : s.completed.map Prod.fst = s.resumed.map Prod.fst ++ s.cq.map Cqe.request := by
      rw [hlink.results, map_append, map_map]
      rfl
    rw [hfst]
    exact perm_append_comm.nodup_iff.mp hsub
  · have hlen := hring.length_eq
    rw [length_append, length_map] at hlen
    omega

/-! The kernel moves entries from one ring to the other. -/

theorem IoLinked.complete (h : IoLinked start s s.cq) (c : ℕ × ℤ) :
    IoLinked start (s.complete c) (s.complete c).cq ∧ (s.complete c).inFlight = s.inFlight := by
  rw [IoCtx.complete]
  split
  · exact ⟨h, rfl⟩
  · next e he =>
    obtain ⟨hi, rfl⟩ := List.getElem?_eq_some_iff.mp he
    refine ⟨{ h with ring := ?_, results := ?_ }, rfl⟩
    · have htaken : (s.taken[c.1] :: s.taken.eraseIdx c.1).Perm s.taken :=
        getElem_cons_eraseIdx_perm hi
      refine List.Perm.trans ?_ h.ring
      show (s.sq ++ s.taken.eraseIdx c.1 ++ (s.cq ++ [_]).map Cqe.entry).Perm _
      rw [map_append, append_assoc, append_assoc]
      apply List.Perm.append_left
      refine List.Perm.trans ?_ (htaken.append_right _)
      rw [← append_assoc]
      exact perm_append_comm
    · show s.completed ++ [_] = _
      rw [h.results, map_append, append_assoc]
      rfl

theorem IoLinked.completes (h : IoLinked start s s.cq) (cs : List (ℕ × ℤ)) :
    IoLinked start (cs.foldl IoCtx.complete s) (cs.foldl IoCtx.complete s).cq ∧
      (cs.foldl IoCtx.complete s).inFlight = s.inFlight := by
  induction cs generalizing s with
  | nil => exact ⟨h, rfl⟩
  | cons c cs ih =>
    obtain ⟨hc, heq⟩ := h.complete c
    obtain ⟨hrest, heq'⟩ := ih hc
    exact ⟨hrest, heq'.trans heq⟩

theorem IoLinked.enter (h : IoLinked start s s.cq) (k : KernelCall) :
    IoLinked start (s.enter k) (s.enter k).cq ∧ (s.enter k).inFlight = s.inFlight := by
  apply IoLinked.completes
  refine { h with ring := ?_ }
  refine Perm.trans ?_ h.ring
  show (s.sq.drop k.takes ++ (s.taken ++ s.sq.take k.takes) ++ _).Perm _
  apply Perm.append_right
  rw [← append_assoc]
  refine perm_append_comm.trans ?_
  rw [← append_assoc, take_append_drop]

/-! Reaping empties the completion queue. -/

theorem IoLinked.find (h : IoLinked start s cq) {e : IoEntry} (he : e ∈ s.inFlight) :
    s.inFlight.find? (fun e' => e'.id = e.id) = some e := by
  have hdistinct := h.distinct
  generalize s.inFlight = l at he hdistinct
  induction l with
  | nil => cases he
  | cons a l ih =>
    obtain ⟨ha, hl⟩ := nodup_cons.mp hdistinct
    rcases mem_cons.mp he with rfl | hmem
    · simp
    · have hne : a.id ≠ e.id := fun heq => ha (heq ▸ mem_map_of_mem hmem)
      rw [find?_cons_of_neg (by simpa using hne)]
      exact ih hmem hl

theorem IoLinked.resume {c : Cqe} (h : IoLinked start s (c :: cq)) :
    IoLinked start (s.resume c) cq ∧ (s.resume c).inFlight = s.inFlight.erase c.entry ∧
      (s.resume c).sq = s.sq ∧ (s.resume c).taken = s.taken := by
  have hmem : c.entry ∈ s.inFlight := h.ring.subset (by simp)
  have hfind : s.inFlight.find? (fun e => e.id = c.id) = some c.entry := h.find hmem
  have herase : (c.entry :: s.inFlight.erase c.entry).Perm s.inFlight :=
    (perm_cons_erase hmem).symm
  rw [IoCtx.resume, hfind]
  refine ⟨{ h with ids := ?_, distinct := ?_, ring := ?_, parts := ?_, results := ?_ },
    rfl, rfl, rfl⟩
  · exact fun e he => h.ids e (mem_of_mem_erase he)
  · exact h.distinct.sublist ((erase_sublist).map _)
  · -- one entry less on both sides
    have hring : (c.entry :: (s.sq ++ s.taken ++ cq.map Cqe.entry)).Perm
        (c.entry :: s.inFlight.erase c.entry) := by
      refine Perm.trans ?_ (h.ring.trans herase.symm)
      rw [map_cons]
      exact perm_middle.symm
    exact hring.cons_inv
  · show ((s.inFlight.erase c.entry).map IoEntry.request ++
      (s.resumed ++ [(c.entry.request, c.res)]).map Prod.fst).Perm s.submitted
    refine Perm.trans ?_ ((herase.map IoEntry.request).append_right _ |>.trans h.parts)
    rw [map_append, map_cons, ← append_assoc]
    exact perm_append_comm
  · show s.completed = s.resumed ++ [(c.entry.request, c.res)] ++ _
    rw [h.results, append_assoc]
    rfl

theorem IoLinked.resumes (h : IoLinked start s cq) :
    IoLinked start (cq.foldl IoCtx.resume s) [] ∧
      (cq.foldl IoCtx.resume s).inFlight.length ≤ s.inFlight.length ∧
      (cq.foldl IoCtx.resume s).sq = s.sq ∧ (cq.foldl IoCtx.resume s).taken = s.taken := by
  induction cq generalizing s with
  | nil => exact ⟨h, Nat.le_refl _, rfl, rfl⟩
  | cons c cq ih =>
    obtain ⟨hc, hflight, hsq, htaken⟩ := h.resume
    obtain ⟨hrest, hlen, hsq', htaken'⟩ := ih hc
    refine ⟨hrest, hlen.trans ?_, hsq'.trans hsq, htaken'.trans htaken⟩
    rw [hflight]
    exact length_erase_le

theorem IoInv.reapCq (h : IoInv u start s) : IoInv u start s.reapCq := by
  obtain ⟨hlink, hlen, -⟩ := h.linked.resumes
  exact ⟨{ hlink with }, hlen.trans h.room⟩

/-! Submission moves requests from the queue to the ring. -/

variable {waiting : List ℕ} {r : ℕ}

theorem IoCtx.submitOne_eq (hwaiting : s.waitingForIo = r :: waiting)
    (hfresh : ∀ e ∈ s.inFlight, e.id ≠ s.reqId) :
    s.submitOne = { s with
        waitingForIo := waiting
        sq := s.sq ++ [⟨s.reqId, r⟩]
        inFlight := s.inFlight ++ [⟨s.reqId, r⟩]
        reqId := (s.reqId + 1) % 2 ^ 64
        submitted := s.submitted ++ [r] } := by
  have hany : ¬ (s.inFlight.any fun e => e.id = s.reqId) = true := by
    simpa using hfresh
  rw [IoCtx.submitOne]
  simp only [hwaiting, if_neg hany]

theorem IoLinked.next_eq (h : IoLinked start s cq) (hwaiting : s.waitingForIo = r :: waiting) :
    r = s.submitted.length := by
  have hat : (List.range s.issued)[s.submitted.length]? = some r := by
    rw [← h.fifo, hwaiting]
    simp
  obtain ⟨hlt, hget⟩ := List.getElem?_eq_some_iff.mp hat
  rw [getElem_range] at hget
  exact hget.symm

theorem IoLinked.submitOne (h : IoLinked start s s.cq) (hwaiting : s.waitingForIo = r :: waiting)
    (hfresh : ∀ e ∈ s.inFlight, e.id ≠ s.reqId) : IoLinked start s.submitOne s.submitOne.cq := by
  rw [IoCtx.submitOne_eq hwaiting hfresh]
  refine ⟨h.sound, ?_, ?_, ?_, ?_, ?_, ?_, h.results⟩
  · show s.submitted ++ [r] ++ waiting = _
    rw [append_assoc, ← h.fifo, hwaiting]
    rfl
  · show (s.reqId + 1) % 2 ^ 64 = _
    rw [h.nextId, length_append, length_singleton]
    omega
  · intro e he
    rcases mem_append.mp he with hold | hnew
    · exact h.ids e hold
    · rw [mem_singleton.mp hnew]
      show s.reqId = (start + r) % 2 ^ 64
      rw [h.next_eq hwaiting, h.nextId]
  · show ((s.inFlight ++ [_]).map IoEntry.id).Nodup
    rw [map_append, nodup_append]
    refine ⟨h.distinct, nodup_singleton _, ?_⟩
    intro a ha b hb
    obtain ⟨e, he, rfl⟩ := mem_map.mp ha
    rw [map_singleton, mem_singleton] at hb
    rw [hb]
    exact hfresh e he
  · show (s.sq ++ [_] ++ s.taken ++ _).Perm (s.inFlight ++ [_])
    refine Perm.trans ?_ (h.ring.append_right _)
    rw [append_assoc, append_assoc, append_assoc, append_assoc]
    apply Perm.append_left
    rw [← append_assoc s.taken]
    exact perm_append_comm
  · show ((s.inFlight ++ [_]).map IoEntry.request ++ _).Perm (s.submitted ++ [r])
    refine Perm.trans ?_ (h.parts.append_right _)
    rw [map_append, append_assoc, append_assoc]
    exact perm_append_comm.append_left _

theorem IoLinked.submits (h : IoLinked start s s.cq) (hn : n ≤ s.waitingForIo.length)
    (hsmall : n ≤ 2 ^ 64) (hfresh : s.FreshFor n) :
    IoLinked start (IoCtx.submitOne^[n] s) (IoCtx.submitOne^[n] s).cq ∧
      (IoCtx.submitOne^[n] s).inFlight.length = s.inFlight.length + n ∧
      (IoCtx.submitOne^[n] s).waitingForIo = s.waitingForIo.drop n ∧
      (IoCtx.submitOne^[n] s).issued = s.issued := by
  induction n generalizing s with
  | zero => exact ⟨h, rfl, rfl, rfl⟩
  | succ n ih =>
    obtain ⟨r, waiting, hwaiting⟩ : ∃ r waiting, s.waitingForIo = r :: waiting :=
      exists_cons_of_length_pos (Nat.lt_of_lt_of_le n.succ_pos hn)
    have hid : s.reqId < 2 ^ 64 := by
      rw [h.nextId]
      exact Nat.mod_lt _ (Nat.two_pow_pos 64)
    have hfirst : ∀ e ∈ s.inFlight, e.id ≠ s.reqId := by
      intro e he
      have hne := hfresh 0 n.succ_pos e he
      rwa [Nat.add_zero, Nat.mod_eq_of_lt hid] at hne
    have heq := IoCtx.submitOne_eq hwaiting hfirst
    have hlink := h.submitOne hwaiting hfirst
    have hfresh' : s.submitOne.FreshFor n := by
      intro i hi e he
      rw [heq] at he ⊢
      have hnum : ((s.reqId + 1) % 2 ^ 64 + i) % 2 ^ 64 = (s.reqId + (i + 1)) % 2 ^ 64 := by omega
      show e.id ≠ ((s.reqId + 1) % 2 ^ 64 + i) % 2 ^ 64
      rw [hnum]
      rcases mem_append.mp he with hold | hnew
      · exact hfresh (i + 1) (Nat.succ_lt_succ hi) e hold
      · -- the counter does not come round within one call
        rw [mem_singleton.mp hnew]
        show s.reqId ≠ _
        omega
    have hlen : n ≤ s.submitOne.waitingForIo.length := by
      rw [heq]
      rw [hwaiting, length_cons] at hn
      exact Nat.le_of_succ_le_succ hn
    obtain ⟨hrest, hflight, hdrop, hissued⟩ := ih hlink hlen (by omega) hfresh'
    rw [iterate_succ_apply]
    refine ⟨hrest, ?_, ?_, ?_⟩
    · rw [hflight, heq]
      show (s.inFlight ++ [_]).length + n = _
      rw [length_append, length_singleton]
      omega
    · rw [hdrop, heq, hwaiting]
      rfl
    · rw [hissued, heq]

theorem IoUring.cqSize_eq (u : IoUring) : u.cqSize = u.queueDepth * 2 := by
  have h₁ := u.le_sqEntries
  have h₂ := u.sqEntries_le
  rw [cqSize]
  omega

theorem IoInv.popCount_le (h : IoInv u start s) :
    s.popCount u ≤ s.waitingForIo.length ∧ s.inFlight.length + s.popCount u ≤ u.cqSize := by
  have hcq := h.good.cq
  have hroom := h.room
  have hsize := u.cqSize_eq
  have h₁ := u.le_sqEntries
  have h₂ := u.sqEntries_le
  rw [IoCtx.popCount]
  dsimp only
  rw [toInt32_of_lt (by omega : u.cqSize < 2 ^ 31), toInt32_of_lt (by omega : s.cq.length < 2 ^ 31),
    toInt32_of_lt (by omega : s.inFlight.length < 2 ^ 31)]
  split
  · constructor
    · exact Nat.min_le_right _ _
    · have hle := Nat.min_le_left
        (min (toInt32 ↑(u.sqEntries - s.sq.length))
          ((u.cqSize : ℤ) - (s.cq.length + s.inFlight.length))).toNat s.waitingForIo.length
      omega
  · omega

theorem submitAndWait_cases (hstep : s.submitAndWait u k = some s') :
    s' = IoCtx.submitOne^[s.popCount u] s ∨
      s' = ((IoCtx.submitOne^[s.popCount u] s).enter k).reapCq := by
  rw [IoCtx.submitAndWait] at hstep
  dsimp only at hstep
  generalize (if (IoCtx.submitOne^[s.popCount u] s).inFlight.length > 0 then 1 else 0) = waitFor
    at hstep
  split at hstep
  · exact .inl (Option.some.inj hstep).symm
  · split at hstep
    · exact .inr (Option.some.inj hstep).symm
    · cases hstep

theorem IoInv.submitAndWait (h : IoInv u start s) (hfresh : s.FreshFor (s.popCount u))
    (hstep : s.submitAndWait u k = some s') : IoInv u start s' := by
  obtain ⟨hwaiting, hroom⟩ := h.popCount_le
  have hsmall : s.popCount u ≤ 2 ^ 64 := by
    have hsize := u.cqSize_eq
    have h₁ := u.le_sqEntries
    have h₂ := u.sqEntries_le
    omega
  obtain ⟨hlink, hlen, -⟩ := h.linked.submits hwaiting hsmall hfresh
  rcases submitAndWait_cases hstep with heq | heq
  · rw [heq]
    exact ⟨hlink, by rw [hlen]; exact hroom⟩
  · rw [heq]
    obtain ⟨henter, hflight⟩ := hlink.enter k
    have hinv : IoInv u start ((IoCtx.submitOne^[s.popCount u] s).enter k) :=
      ⟨henter, by rw [hflight, hlen]; exact hroom⟩
    exact hinv.reapCq

theorem IoInv.enqueue (h : IoInv u start s) : IoInv u start s.enqueue := by
  refine ⟨{ h.linked with fifo := ?_ }, h.room⟩
  show s.submitted ++ (s.waitingForIo ++ [s.issued]) = range (s.issued + 1)
  rw [← append_assoc, h.linked.fifo, range_succ]

/-- **One step.** -/
theorem IoInv.step (h : IoInv u start s) {a : IoAct} (hfresh : a.FreshIds u s)
    (hstep : ioStep u s a = some s') : IoInv u start s' := by
  cases a with
  | submitRequest k =>
    have hq := h.enqueue
    rw [IoAct.FreshIds, IoAct.pops] at hfresh
    rw [ioStep, IoCtx.submitRequest] at hstep
    split at hstep
    · next hfull =>
      rw [if_pos hfull] at hfresh
      exact hq.submitAndWait hfresh hstep
    · split at hstep
      · obtain rfl := Option.some.inj hstep
        exact hq.reapCq
      · obtain rfl := Option.some.inj hstep
        exact hq
  | submitAndWait k => exact h.submitAndWait hfresh hstep
  | reapCq =>
    obtain rfl := Option.some.inj hstep
    exact h.reapCq
  | complete i res =>
    rw [ioStep] at hstep
    split at hstep
    · obtain rfl := Option.some.inj hstep
      obtain ⟨hlink, hflight⟩ := h.linked.complete (i, res)
      exact ⟨hlink, hflight ▸ h.room⟩
    · cases hstep

theorem IoInv.make (u : IoUring) (hstart : start < 2 ^ 64) :
    IoInv u start { reqId := start } := by
  refine ⟨⟨rfl, rfl, ?_, forall_mem_nil _, nodup_nil, Perm.refl _,
    Perm.refl _, rfl⟩, Nat.zero_le _⟩
  exact (Nat.mod_eq_of_lt hstart).symm

end Steps

/-! ### Numbers that are free -/

def IoAct.isRequest : IoAct → Bool
  | .submitRequest _ => true
  | _ => false

section Fresh

variable {u : IoUring} {start : ℕ} {s s' : IoCtx} {k : KernelCall}

/-! What the kernel and `reap_cq` leave alone. -/

theorem resumes_frame (cq : List Cqe) (s : IoCtx) :
    (cq.foldl IoCtx.resume s).issued = s.issued ∧
      (cq.foldl IoCtx.resume s).waitingForIo = s.waitingForIo := by
  induction cq generalizing s with
  | nil => exact ⟨rfl, rfl⟩
  | cons c cq ih =>
    have hone : (s.resume c).issued = s.issued ∧ (s.resume c).waitingForIo = s.waitingForIo := by
      rw [IoCtx.resume]
      split <;> exact ⟨rfl, rfl⟩
    exact ⟨(ih _).1.trans hone.1, (ih _).2.trans hone.2⟩

theorem completes_frame (cs : List (ℕ × ℤ)) (s : IoCtx) :
    (cs.foldl IoCtx.complete s).issued = s.issued ∧
      (cs.foldl IoCtx.complete s).waitingForIo = s.waitingForIo ∧
      (cs.foldl IoCtx.complete s).sq = s.sq := by
  induction cs generalizing s with
  | nil => exact ⟨rfl, rfl, rfl⟩
  | cons c cs ih =>
    have hone : (s.complete c).issued = s.issued ∧
        (s.complete c).waitingForIo = s.waitingForIo ∧ (s.complete c).sq = s.sq := by
      rw [IoCtx.complete]
      split <;> exact ⟨rfl, rfl, rfl⟩
    obtain ⟨h₁, h₂, h₃⟩ := ih (s.complete c)
    exact ⟨h₁.trans hone.1, h₂.trans hone.2.1, h₃.trans hone.2.2⟩

theorem reapCq_frame (s : IoCtx) :
    s.reapCq.issued = s.issued ∧ s.reapCq.waitingForIo = s.waitingForIo :=
  resumes_frame s.cq s

theorem enter_frame (s : IoCtx) (k : KernelCall) :
    (s.enter k).issued = s.issued ∧ (s.enter k).waitingForIo = s.waitingForIo ∧
      (s.enter k).sq = s.sq.drop k.takes :=
  completes_frame k.completes _

theorem submits_issued (n : ℕ) (s : IoCtx) : (IoCtx.submitOne^[n] s).issued = s.issued := by
  induction n generalizing s with
  | zero => rfl
  | succ n ih =>
    rw [iterate_succ_apply, ih, IoCtx.submitOne]
    split <;> rfl

theorem submitAndWait_issued (hstep : s.submitAndWait u k = some s') : s'.issued = s.issued := by
  rcases submitAndWait_cases hstep with heq | heq
  · rw [heq, submits_issued]
  · rw [heq, (reapCq_frame _).1, (enter_frame _ k).1, submits_issued]

theorem ioStep_issued {a : IoAct} (hstep : ioStep u s a = some s') :
    s'.issued = s.issued + if a.isRequest then 1 else 0 := by
  cases a with
  | submitRequest k =>
    rw [ioStep, IoCtx.submitRequest] at hstep
    split at hstep
    · exact submitAndWait_issued hstep
    · split at hstep
      · obtain rfl := Option.some.inj hstep
        exact (reapCq_frame _).1
      · obtain rfl := Option.some.inj hstep
        rfl
  | submitAndWait k => exact submitAndWait_issued hstep
  | reapCq =>
    obtain rfl := Option.some.inj hstep
    exact (reapCq_frame s).1
  | complete i res =>
    rw [ioStep] at hstep
    split at hstep
    · obtain rfl := Option.some.inj hstep
      exact (completes_frame [(i, res)] s).1
    · cases hstep

theorem IoInv.freshFor (h : IoInv u start s) (hn : n ≤ s.waitingForIo.length)
    (hissued : s.issued ≤ 2 ^ 64) : s.FreshFor n := by
  have hlink := h.linked
  have hlen : s.submitted.length + s.waitingForIo.length = s.issued := by
    rw [← length_append, hlink.fifo, length_range]
  intro i hi e he
  -- an earlier request, by its position in the order of arrival
  have hlt : e.request < s.submitted.length := by
    have hmem : e.request ∈ s.submitted :=
      hlink.parts.subset (mem_append_left _ (mem_map_of_mem he))
    obtain ⟨j, hj, hget⟩ := getElem_of_mem hmem
    have hat : (List.range s.issued)[j]? = some e.request := by
      rw [← hlink.fifo, List.getElem?_append_left hj, List.getElem?_eq_getElem hj, hget]
    obtain ⟨_, hrange⟩ := List.getElem?_eq_some_iff.mp hat
    rw [getElem_range] at hrange
    omega
  rw [hlink.ids e he, hlink.nextId]
  omega

theorem freshIds_of_requests (h : IoInv u start s) {acts : List IoAct}
    (hcount : s.issued + acts.countP IoAct.isRequest ≤ 2 ^ 64) :
    Run.AllSteps (ioStep u) (fun s a => a.FreshIds u s) s acts := by
  induction acts generalizing s with
  | nil => trivial
  | cons a acts ih =>
    rw [countP_cons] at hcount
    have hfresh : a.FreshIds u s := by
      cases a with
      | submitRequest k =>
        rw [IoAct.FreshIds, IoAct.pops]
        split
        · have hle : s.enqueue.issued ≤ 2 ^ 64 := by
            have hone : (IoAct.submitRequest k).isRequest = true := rfl
            rw [if_pos hone] at hcount
            show s.issued + 1 ≤ _
            omega
          exact h.enqueue.freshFor h.enqueue.popCount_le.1 hle
        · exact fun i hi => absurd hi (Nat.not_lt_zero i)
      | submitAndWait k => exact h.freshFor h.popCount_le.1 (by omega)
      | reapCq => exact fun i hi => absurd hi (Nat.not_lt_zero i)
      | complete i res => exact fun i hi => absurd hi (Nat.not_lt_zero i)
    refine ⟨hfresh, fun t ht => ih (h.step hfresh ht) ?_⟩
    rw [ioStep_issued ht]
    omega

end Fresh

/-! ### No request is stuck -/

/-- A few more calls of the post-run hook resume all requests, if the kernel completes what is
submitted. -/
def Drains (u : IoUring) (s : IoCtx) : Prop :=
  ∃ acts s', (∀ a ∈ acts, ∃ k, a = IoAct.submitAndWait k) ∧
    Run.exec (ioStep u) s acts = some s' ∧ s'.waitingForIo = [] ∧ s'.inFlight = [] ∧
    (s'.resumed.map Prod.fst).Perm (range s.issued)

section Progress

variable {u : IoUring} {start : ℕ} {s : IoCtx}

theorem complete_all (n : ℕ) (s : IoCtx) :
    ((replicate n (0, 0)).foldl IoCtx.complete s).taken = s.taken.drop n := by
  induction n generalizing s with
  | zero => rfl
  | succ n ih =>
    have hone : (s.complete (0, 0)).taken = s.taken.drop 1 := by
      rw [IoCtx.complete]
      split
      · next hnone =>
        have hlen : s.taken.length ≤ 1 :=
          (getElem?_eq_none_iff.mp hnone).trans (Nat.zero_le 1)
        rw [drop_of_length_le hlen]
        exact length_eq_zero_iff.mp (Nat.le_zero.mp (getElem?_eq_none_iff.mp hnone))
      · exact eraseIdx_zero.trans drop_one.symm
    rw [replicate_succ, foldl_cons, ih, hone, drop_drop, Nat.add_comm]

theorem IoLinked.drain (h : IoLinked start s s.cq) :
    ∃ k : KernelCall, k.fails = false ∧ (s.enter k).cq.length = s.inFlight.length ∧
      (s.enter k).reapCq.inFlight = [] ∧ (s.enter k).reapCq.sq = [] := by
  refine ⟨⟨false, s.sq.length, replicate (s.taken.length + s.sq.length) (0, 0)⟩, rfl, ?_⟩
  generalize hk : (⟨false, s.sq.length, replicate (s.taken.length + s.sq.length) (0, 0)⟩ :
    KernelCall) = k
  obtain ⟨henter, hflight⟩ := h.enter k
  have hsq : (s.enter k).sq = [] := by
    rw [(enter_frame s k).2.2, ← hk]
    exact drop_length
  have htaken : (s.enter k).taken = [] := by
    rw [IoCtx.enter, ← hk, complete_all]
    apply drop_of_length_le
    show (s.taken ++ s.sq.take s.sq.length).length ≤ _
    rw [take_length, length_append]
  obtain ⟨hreap, -, hsq', htaken'⟩ := henter.resumes
  refine ⟨?_, ?_, hsq'.trans hsq⟩
  · have hring := henter.ring
    rw [hsq, htaken, append_nil, nil_append] at hring
    rw [← hflight, ← hring.length_eq, length_map]
  · have hring := hreap.ring
    rw [hsq', htaken', hsq, htaken] at hring
    exact nil_perm.mp hring

theorem IoInv.drainOne (h : IoInv u start s) (hissued : s.issued ≤ 2 ^ 64) :
    ∃ k s', s.submitAndWait u k = some s' ∧ IoInv u start s' ∧ s'.issued = s.issued ∧
      s'.waitingForIo = s.waitingForIo.drop (s.popCount u) ∧ s'.inFlight = [] ∧ s'.sq = [] ∧
      s'.cq = [] := by
  obtain ⟨hwaiting, hroom⟩ := h.popCount_le
  have hfresh := h.freshFor hwaiting hissued
  have hsize := u.cqSize_eq
  have h₁ := u.le_sqEntries
  have h₂ := u.sqEntries_le
  obtain ⟨hlink, -, hdrop, -⟩ := h.linked.submits hwaiting (by omega) hfresh
  obtain ⟨k, hfails, hcq, hflight, hsq⟩ := hlink.drain
  have hstep : s.submitAndWait u k =
      some ((IoCtx.submitOne^[s.popCount u] s).enter k).reapCq := by
    rw [IoCtx.submitAndWait]
    dsimp only
    rw [hfails, if_neg Bool.false_ne_true, hcq, if_pos]
    split <;> omega
  refine ⟨k, _, hstep, h.submitAndWait hfresh hstep, submitAndWait_issued hstep, ?_, hflight, hsq,
    rfl⟩
  rw [(reapCq_frame _).2, (enter_frame _ k).2.1, hdrop]

theorem popCount_pos (hwaiting : s.waitingForIo ≠ []) (hflight : s.inFlight = []) (hsq : s.sq = [])
    (hcq : s.cq = []) : 0 < s.popCount u := by
  have hsize := u.cqSize_eq
  have h₀ := u.queueDepth_pos
  have h₁ := u.le_sqEntries
  have h₂ := u.sqEntries_le
  have hlen := length_pos_iff.mpr hwaiting
  have hzero : toInt32 ↑(0 : ℕ) = 0 := by decide
  rw [IoCtx.popCount, hflight, hsq, hcq]
  simp only [length_nil, hzero, toInt32_of_lt (by omega : u.cqSize < 2 ^ 31),
    toInt32_of_lt (by omega : u.sqEntries - 0 < 2 ^ 31)]
  rw [if_pos (by omega)]
  omega

theorem IoInv.drains_idle (h : IoInv u start s) (hissued : s.issued ≤ 2 ^ 64)
    (hflight : s.inFlight = []) (hsq : s.sq = []) (hcq : s.cq = []) : Drains u s := by
  -- the queue gets shorter with every call
  induction hn : s.waitingForIo.length using Nat.strong_induction_on generalizing s with
  | _ n ih =>
    subst hn
    rcases eq_or_ne s.waitingForIo [] with hnil | hwaiting
    · refine ⟨[], s, forall_mem_nil _, rfl, hnil, hflight, ?_⟩
      have hparts := h.good.parts
      rwa [hnil, hflight] at hparts
    · obtain ⟨k, s', hstep, h', hissued', hdrop, hflight', hsq', hcq'⟩ := h.drainOne hissued
      have hpos : 0 < s.popCount u := popCount_pos hwaiting hflight hsq hcq
      have hshort : s'.waitingForIo.length < s.waitingForIo.length := by
        have hlen := length_pos_iff.mpr hwaiting
        rw [hdrop, length_drop]
        omega
      obtain ⟨acts, s'', hacts, hrun, hdone⟩ :=
        ih _ hshort h' (hissued' ▸ hissued) hflight' hsq' hcq' rfl
      rw [hissued'] at hdone
      refine ⟨.submitAndWait k :: acts, s'', ?_, ?_, hdone⟩
      · exact forall_mem_cons.mpr ⟨⟨k, rfl⟩, hacts⟩
      · exact (Run.exec_cons (a := IoAct.submitAndWait k) hstep).trans hrun

theorem IoInv.drains (h : IoInv u start s) (hissued : s.issued ≤ 2 ^ 64) : Drains u s := by
  obtain ⟨k, s', hstep, h', hissued', -, hflight, hsq, hcq⟩ := h.drainOne hissued
  obtain ⟨acts, s'', hacts, hrun, hdone⟩ := h'.drains_idle (hissued' ▸ hissued) hflight hsq hcq
  rw [hissued'] at hdone
  refine ⟨.submitAndWait k :: acts, s'', ?_, ?_, hdone⟩
  · exact forall_mem_cons.mpr ⟨⟨k, rfl⟩, hacts⟩
  · exact (Run.exec_cons (a := IoAct.submitAndWait k) hstep).trans hrun

end Progress

/-! ### Runs -/

/-- **No request is lost or resumed twice**, as long as no number is given out that is in flight;
and the requests of a run of up to `2 ^ 64` of them can all still be resumed. -/
theorem io_requests_exact (u : IoUring) {start : ℕ} (hstart : start < 2 ^ 64) {acts : List IoAct}
    {s : IoCtx}
    (hfresh : Run.AllSteps (ioStep u) (fun s a => a.FreshIds u s) { reqId := start } acts)
    (hrun : Run.exec (ioStep u) { reqId := start } acts = some s) :
    IoGood u s ∧ (s.issued ≤ 2 ^ 64 → Drains u s) := by
  have hinv : IoInv u start s :=
    Run.exec_invariant (fun _ _ _ h hC hstep => h.step hC hstep) (IoInv.make u hstart) hfresh hrun
  exact ⟨hinv.good, hinv.drains⟩

/-- A context for two requests. -/
def twoDeep : IoUring := ⟨2, 2, by decide, by decide, by decide⟩

/-- The counter wraps between two requests, and they are completed in the other order. -/
theorem io_requests_exact_wrapped : ∃ s,
    Run.exec (ioStep twoDeep) { reqId := 2 ^ 64 - 1 }
        [.submitRequest {}, .submitRequest { takes := 2, completes := [(1, 7)] }, .complete 0 5,
          .reapCq] = some s ∧
      s.resumed = [(1, 7), (0, 5)] ∧ IoGood twoDeep s := by
  have hview : (Run.exec (ioStep twoDeep) { reqId := 2 ^ 64 - 1 }
      [.submitRequest {}, .submitRequest { takes := 2, completes := [(1, 7)] }, .complete 0 5,
        .reapCq]).map IoCtx.resumed = some [(1, 7), (0, 5)] := by decide +kernel
  obtain ⟨s, hrun, hresumed⟩ := Option.map_eq_some_iff.mp hview
  have hstart : 2 ^ 64 - 1 < 2 ^ 64 := by decide
  have hfresh : Run.AllSteps (ioStep twoDeep) (fun s a => a.FreshIds twoDeep s)
      { reqId := 2 ^ 64 - 1 } [.submitRequest {},
        .submitRequest { takes := 2, completes := [(1, 7)] }, .complete 0 5, .reapCq] :=
    freshIds_of_requests (IoInv.make twoDeep hstart) (by decide)
  exact ⟨s, hrun, hresumed, (io_requests_exact twoDeep hstart hfresh hrun).1⟩

/-! ### A request that waits too long -/

/-- Request 0 is still with the kernel, and the `n + 1` requests behind it have been resumed. -/
def onePending (n : ℕ) : IoCtx where
  reqId := (n + 2) % 2 ^ 64
  inFlight := [⟨0, 0⟩]
  taken := [⟨0, 0⟩]
  issued := n + 2
  submitted := range (n + 2)
  completed := (range' 1 (n + 1)).map fun r => (r, 7)
  resumed := (range' 1 (n + 1)).map fun r => (r, 7)

/-- A request comes, and the hook submits it; the kernel completes it and not request 0. -/
def oneMore (res : ℤ) : List IoAct :=
  [.submitRequest {}, .submitAndWait { takes := 1, completes := [(1, res)] }]

/-- So for `n` requests. -/
def manyMore : ℕ → List IoAct
  | 0 => []
  | n + 1 => manyMore n ++ oneMore 7

theorem submitRequest_onePending (n : ℕ) :
    ioStep twoDeep (onePending n) (.submitRequest {}) = some (onePending n).enqueue := rfl

theorem submitAndWait_onePending {s : IoCtx} (res : ℤ) (hs : (onePending n).enqueue.submitOne = s)
    (hcq : (s.enter ⟨false, 1, [(1, res)]⟩).cq ≠ []) :
    ioStep twoDeep (onePending n).enqueue (.submitAndWait { takes := 1, completes := [(1, res)] }) =
      some (s.enter ⟨false, 1, [(1, res)]⟩).reapCq := by
  have hpop : (onePending n).enqueue.popCount twoDeep = 1 := by
    show (if toInt32 4 - (toInt32 0 + toInt32 1) > 0 then
      min (min (toInt32 2) (toInt32 4 - (toInt32 0 + toInt32 1))).toNat 1 else 0) = 1
    decide
  have hlen := length_pos_iff.mpr hcq
  rw [ioStep, IoCtx.submitAndWait, hpop, iterate_one, hs]
  dsimp only
  rw [if_neg Bool.false_ne_true, if_pos]
  split <;> omega

theorem exec_oneMore (hn : n + 2 < 2 ^ 64) :
    Run.exec (ioStep twoDeep) (onePending n) (oneMore 7) = some (onePending (n + 1)) := by
  have hid : (n + 2) % 18446744073709551616 = n + 2 := Nat.mod_eq_of_lt hn
  have hsub : (onePending n).enqueue.submitOne =
      { onePending n with
        reqId := (n + 3) % 2 ^ 64
        waitingForIo := []
        inFlight := [⟨0, 0⟩, ⟨n + 2, n + 2⟩]
        sq := [⟨n + 2, n + 2⟩]
        issued := n + 3
        submitted := range (n + 2) ++ [n + 2] } := by
    simp [IoCtx.submitOne, IoCtx.enqueue, onePending, hid]
  have hstep := submitAndWait_onePending 7 hsub (by simp [IoCtx.enter, IoCtx.complete, onePending])
  rw [oneMore, Run.exec_cons (submitRequest_onePending n), Run.exec_cons hstep, Run.exec]
  simp [IoCtx.enter, IoCtx.complete, onePending, IoCtx.reapCq, IoCtx.resume, range_succ,
    range'_concat]
  omega

theorem exec_manyMore (hn : n + 2 ≤ 2 ^ 64) :
    Run.exec (ioStep twoDeep) (onePending 0) (manyMore n) = some (onePending n) := by
  induction n with
  | zero => rfl
  | succ n ih =>
    rw [manyMore, Run.exec_append, ih (by omega), Option.bind_some]
    exact exec_oneMore (by omega)

/-- The counter has come round to the number of request 0: the new request is not remembered,
and request 0 gets its result. -/
theorem exec_oneMore_wrapped (hn : (n + 2) % 2 ^ 64 = 0) :
    ∃ s, Run.exec (ioStep twoDeep) (onePending n) (oneMore 9) = some s ∧ (0, 9) ∈ s.resumed ∧
      (0, 9) ∉ s.completed := by
  have hsub : (onePending n).enqueue.submitOne =
      { onePending n with
        reqId := 1
        waitingForIo := []
        sq := [⟨0, n + 2⟩]
        issued := n + 3
        submitted := range (n + 2) ++ [n + 2] } := by
    have hid : (n + 2) % 18446744073709551616 = 0 := hn
    simp [IoCtx.submitOne, IoCtx.enqueue, onePending, hid]
  have hstep := submitAndWait_onePending 9 hsub (by simp [IoCtx.enter, IoCtx.complete, onePending])
  refine ⟨_, (Run.exec_cons (submitRequest_onePending n)).trans (Run.exec_cons hstep), ?_⟩
  simp [IoCtx.enter, IoCtx.complete, onePending, IoCtx.reapCq, IoCtx.resume]

/-- **Request 0 is resumed with the result of another request**, which is itself in none of the
three places. -/
theorem io_request_lost :
    ∃ acts s, Run.exec (ioStep twoDeep) { reqId := 0 } acts = some s ∧ (0, 9) ∈ s.resumed ∧
      (0, 9) ∉ s.completed ∧ ¬ IoGood twoDeep s := by
  have hfirst : Run.exec (ioStep twoDeep) { reqId := 0 }
      [.submitRequest {}, .submitRequest { takes := 2, completes := [(1, 7)] }] =
        some (onePending 0) := by decide +kernel
  obtain ⟨n, hn⟩ : ∃ n, n + 2 = 2 ^ 64 := ⟨2 ^ 64 - 2, by decide⟩
  obtain ⟨s, hlast, hresumed, hcompleted⟩ := exec_oneMore_wrapped (n := n) (by omega)
  refine ⟨[.submitRequest {}, .submitRequest { takes := 2, completes := [(1, 7)] }] ++
    (manyMore n ++ oneMore 9), s, ?_, hresumed, hcompleted, ?_⟩
  · rw [Run.exec_append, hfirst, Option.bind_some, Run.exec_append, exec_manyMore hn.le,
      Option.bind_some, hlast]
  · exact fun hgood => hcompleted (hgood.own _ hresumed)

end HedgeDB
