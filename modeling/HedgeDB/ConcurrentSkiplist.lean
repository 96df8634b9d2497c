/-
HedgeDB/ConcurrentSkiplist.lean

The nodes of a table (`ConcurrentSkipList` of `src/db/skiplist/concurrent_skip_list/`, as
`skiplist_t`).

A writer looks for the neighbours of its entry on every layer without a lock, locks the
predecessors from the lowest layer up, checks that their links have not moved, and links
the new node layer by layer, again from the lowest up.  A reader takes no lock at all.
Every access that another thread can see is an atomic action, so the runs are all
interleavings of the calls of any number of threads.

`Skiplist` is what the rest of the development takes a table for.  `contents_eq_table`
is the reason it may: the store that links a node on the lowest layer is an insertion, and
no other access changes what the list holds.
-/
import HedgeDB.CursorRange
import HedgeDB.Interleave
import HedgeDB.LinkedPath

namespace HedgeDB

open LinkedPath Interleave List Function

variable {ι K : Type*} [LinearOrder K]

/-! ### Nodes -/

/-- `MAX_HEIGHT`, which is also the height `skiplist_wrapper` gives the head. -/
def maxHeight : ℕ := 24

/-- The nodes, by number: `0` is the head, those from `created` on do not exist yet.  The
link of node `a` on layer `k` is `skip k a`.  `spinLock` records who holds the lock,
`creator` who has created the node, and `table` takes the entries of the nodes as they are
linked on the lowest layer. -/
structure ConcurrentSkipList (ι K : Type*) [LinearOrder K] where
  data : ℕ → MemtableEntry K
  skip : ℕ → ℕ → Option ℕ := fun _ _ => none
  fullyLinked : ℕ → Bool := fun _ => false
  spinLock : ℕ → Option ι := fun _ => none
  creator : ℕ → Option ι := fun _ => none
  created : ℕ := 1
  table : Skiplist K := .empty

namespace ConcurrentSkipList

variable (g : ConcurrentSkipList ι K)

/-- `greater`: node `b` exists and its entry comes before `e`. -/
def greater (e : MemtableEntry K) (b : Option ℕ) : Bool := b.any fun b => memtableCmp (g.data b) e

/-- `less`: there is no node `b`, or its entry comes after `e`. -/
def less (e : MemtableEntry K) (b : Option ℕ) : Bool := b.all fun b => memtableCmp e (g.data b)

/-- The spin lock of node `a` is taken or given back. -/
def setLock (a : ℕ) (t : Option ι) : ConcurrentSkipList ι K :=
  { g with spinLock := update g.spinLock a t }

def create (e : MemtableEntry K) (t : ι) : ConcurrentSkipList ι K :=
  { g with
    data := update g.data g.created e
    creator := update g.creator g.created (some t)
    created := g.created + 1 }

/-- Node `n` is linked on layer `k` between `p` and `b`: its own link first, which nobody can
read before that of `p`. -/
def link (k p n : ℕ) (b : Option ℕ) : ConcurrentSkipList ι K :=
  { g with
    skip := update g.skip k (update (update (g.skip k) n b) p (some n))
    table := if k = 0 then g.table.insert (g.data n) else g.table }

theorem link_skip {k p n j a : ℕ} {b : Option ℕ} (h : ¬(j = k ∧ (a = n ∨ a = p))) :
    (g.link k p n b).skip j a = g.skip j a := by
  by_cases hj : j = k
  · obtain ⟨hn, hp⟩ := not_or.mp fun ha => h ⟨hj, ha⟩
    simp [link, hj, hn, hp]
  · simp [link, hj]

/-- The nodes on layer `k`, in the order of their links. -/
def layer (k : ℕ) : List ℕ := walk (g.skip k) g.created 0

def contents : List (MemtableEntry K) := (g.layer 0).map g.data

end ConcurrentSkipList

/-! ### Calls -/

/-- The local variables of `addOrGetData`; `guards` are the nodes locked, the last first. -/
structure AddCall (K : Type*) where
  data : MemtableEntry K
  preds : ℕ → ℕ := fun _ => 0
  succs : ℕ → Option ℕ := fun _ => none
  height : ℕ := 0
  guards : List ℕ := []

/-- Where a thread is.  `findInsertionPoint` and `findNode` are about to read the link of
`pred` on `layer`; `lock` and `check` are `lockNodesForChange` at `layer`; in `unlock` the
guards go out of scope, and `result` is what the call returns, if it does not try again. -/
inductive SkipPc (K : Type*)
  | idle
  | findInsertionPoint (c : AddCall K) (layer pred : ℕ) (found : Option ℕ)
  | waitLinked (c : AddCall K) (node : ℕ)
  | lock (c : AddCall K) (layer : ℕ)
  | check (c : AddCall K) (layer : ℕ)
  | link (c : AddCall K) (node layer : ℕ)
  | setFullyLinked (c : AddCall K) (node : ℕ)
  | unlock (c : AddCall K) (result : Option ℕ)
  | added (c : AddCall K) (node : ℕ)
  | findNode (e : MemtableEntry K) (layer pred : ℕ)
  | found (e : MemtableEntry K) (node : Option ℕ)

/-- A call begins, or the thread goes on with its call; `height` is what `getHeight`
draws, should it be asked. -/
inductive SkipAct (K : Type*)
  | addOrGetData (e : MemtableEntry K)
  | lowerBound (e : MemtableEntry K)
  | run (height : ℕ)

/-- `pred != prevPred`. -/
def AddCall.locks (c : AddCall K) : ℕ → Bool
  | 0 => true
  | layer + 1 => c.preds (layer + 1) ≠ c.preds layer

/-- `addOrGetData` from the search on. -/
def AddCall.begin (e : MemtableEntry K) : SkipPc K :=
  .findInsertionPoint { data := e } (maxHeight - 1) 0 none

/-- The search has read `node` on `layer` and goes no further there. -/
def AddCall.descend (c : AddCall K) (height layer pred : ℕ) (node found : Option ℕ) :
    Option (SkipPc K) :=
  let c' := { c with
    preds := update c.preds layer pred
    succs := update c.succs layer (found.or node) }
  match layer, found with
  | layer + 1, _ => some (.findInsertionPoint c' layer pred found)
  | 0, some b => some (.waitLinked c' b)
  | 0, none =>
    if 1 ≤ height ∧ height ≤ maxHeight then some (.lock { c' with height, guards := [] } 0)
    else none

/-- The last guard goes out of scope; without one, the call tries again or returns. -/
def AddCall.unlock (c : AddCall K) (result : Option ℕ) (g : ConcurrentSkipList ι K) :
    ConcurrentSkipList ι K × SkipPc K :=
  match c.guards, result with
  | p :: guards, _ => (g.setLock p none, .unlock { c with guards } result)
  | [], none => (g, AddCall.begin c.data)
  | [], some n => (g, .added c n)

/-- One access by a thread that is in a call. -/
def skipStep (t : ι) (height : ℕ) (g : ConcurrentSkipList ι K) :
    SkipPc K → Option (ConcurrentSkipList ι K × SkipPc K)
  | .findInsertionPoint c layer pred found =>
    let node := g.skip layer pred
    if g.greater c.data node then some (g, .findInsertionPoint c layer (node.getD pred) found)
    else
      let found' := if found.isNone && !g.less c.data node then node else found
      (c.descend height layer pred node found').map (Prod.mk g)
  | .waitLinked c b => if g.fullyLinked b then some (g, .added c b) else none
  | .lock c layer =>
    let p := c.preds layer
    if c.locks layer then
      if (g.spinLock p).isSome then none
      else some (g.setLock p (some t), .check { c with guards := p :: c.guards } layer)
    else some (g, .check c layer)
  | .check c layer =>
    if g.skip layer (c.preds layer) ≠ c.succs layer then some (g, .unlock c none)
    else if layer + 1 < c.height then some (g, .lock c (layer + 1))
    else some (g.create c.data t, .link c g.created 0)
  | .link c n layer =>
    some (g.link layer (c.preds layer) n (c.succs layer),
      if layer + 1 < c.height then .link c n (layer + 1) else .setFullyLinked c n)
  | .setFullyLinked c n =>
    some ({ g with fullyLinked := update g.fullyLinked n true }, .unlock c (some n))
  | .unlock c result => some (c.unlock result g)
  -- both loops of `findNodeDownRight` do this with the link they read
  | .findNode e layer pred =>
    let node := g.skip layer pred
    if g.greater e node then some (g, .findNode e layer (node.getD pred))
    else if g.less e node ∧ layer ≠ 0 then some (g, .findNode e (layer - 1) pred)
    else some (g, .found e node)
  | _ => none

/-- The thread is between two calls. -/
def SkipPc.isDone : SkipPc K → Bool
  | idle | added .. | found .. => true
  | _ => false

def skipAct (t : ι) (a : SkipAct K) (g : ConcurrentSkipList ι K) (l : SkipPc K) :
    Option (ConcurrentSkipList ι K × SkipPc K) :=
  match a with
  | .addOrGetData e => if l.isDone then some (g, AddCall.begin e) else none
  | .lowerBound e => if l.isDone then some (g, .findNode e (maxHeight - 1) 0) else none
  | .run height => skipStep t height g l

/-- The list, used by threads `ι`. -/
def skipList (ι K : Type*) [LinearOrder K] :
    System ι (ConcurrentSkipList ι K) (SkipPc K) (SkipAct K) Empty where
  act := skipAct
  background := fun b => b.elim

/-- A new list, before any call; the head holds the default entry `value`. -/
def newSkipList (ι : Type*) (value : MemtableEntry K) :
    State ι (ConcurrentSkipList ι K) (SkipPc K) :=
  ⟨{ data := fun _ => value }, fun _ => .idle⟩

/-! ### The layers -/

/-- The links of a layer lead from the head through its nodes, in the order of their
entries, and what is on a layer is on those below. -/
structure Layered (g : ConcurrentSkipList ι K) : Prop where
  path : ∀ k, Path (g.skip k) (0 :: g.layer k)
  sorted : ∀ k, (g.layer k).Pairwise fun a b => memtableCmp (g.data a) (g.data b) = true
  below : ∀ k, ∀ a ∈ g.layer (k + 1), a ∈ g.layer k
  created : ∀ k, ∀ a ∈ g.layer k, a ≠ 0 ∧ a < g.created
  pos : 0 < g.created
  table : (g.layer 0).map g.data = g.table.entries

/-- Node `p` is on layer `k` and comes before `e`; the head comes before everything. -/
def SkipBefore (g : ConcurrentSkipList ι K) (k p : ℕ) (e : MemtableEntry K) : Prop :=
  p = 0 ∨ p ∈ g.layer k ∧ memtableCmp (g.data p) e = true

section Layers

variable {g : ConcurrentSkipList ι K} {e : MemtableEntry K} {k p n : ℕ}

theorem layer_eq {l : List ℕ} (hpath : Path (g.skip k) (0 :: l)) (hnodup : l.Nodup)
    (hcreated : ∀ a ∈ l, a < g.created) : g.layer k = l := by
  refine hpath.walk_eq ?_
  have hsub : l ⊆ range g.created := fun a ha => mem_range.mpr (hcreated a ha)
  simpa using (hnodup.subperm hsub).length_le

theorem Layered.mem_of_le (h : Layered g) {j a : ℕ} (hjk : j ≤ k) (ha : a ∈ g.layer k) :
    a ∈ g.layer j := by
  induction hjk with
  | refl => exact ha
  | step _ ih => exact ih (h.below _ a ha)

theorem SkipBefore.of_le (h : Layered g) {j : ℕ} (hjk : j ≤ k) (hp : SkipBefore g k p e) :
    SkipBefore g j p e :=
  hp.imp_right fun ⟨hmem, hlt⟩ => ⟨h.mem_of_le hjk hmem, hlt⟩

theorem SkipBefore.lt_created (h : Layered g) (hp : SkipBefore g k p e) : p < g.created := by
  rcases hp with rfl | ⟨hmem, -⟩
  · exact h.pos
  · exact (h.created k p hmem).2

theorem nodup_of_sorted {l : List ℕ}
    (hl : l.Pairwise fun a b => memtableCmp (g.data a) (g.data b) = true) : l.Nodup := by
  refine hl.imp ?_
  rintro a b hab rfl
  rw [memtableCmp_self] at hab
  cases hab

/-- A layer from a node before `e` on: what leads to the node comes before `e` too, and its
link leads to the rest. -/
theorem SkipBefore.split (h : Layered g) (hp : SkipBefore g k p e) :
    ∃ l₁ l₂, g.layer k = l₁ ++ l₂ ∧ (∃ l₀, 0 :: l₁ = l₀ ++ [p]) ∧
      (∀ a ∈ l₁, memtableCmp (g.data a) e = true) ∧ g.skip k p = l₂.head? := by
  have hpath := h.path k
  rcases hp with rfl | ⟨hmem, hlt⟩
  · exact ⟨[], g.layer k, rfl, ⟨[], rfl⟩, nofun, hpath.1⟩
  · obtain ⟨l₀, l₂, hl⟩ := append_of_mem hmem
    have hs := h.sorted k
    rw [hl] at hs hpath
    change Path _ ((0 :: l₀) ++ p :: l₂) at hpath
    refine ⟨l₀ ++ [p], l₂, by simp [hl], ⟨0 :: l₀, rfl⟩, fun a ha => ?_, hpath.next_eq⟩
    rcases mem_append.mp ha with ha' | ha'
    · exact memtableCmp_trans ((pairwise_append.mp hs).2.2 a ha' p mem_cons_self) hlt
    · rwa [mem_singleton.mp ha']

theorem SkipBefore.next_mem (h : Layered g) (hp : SkipBefore g k p e) {b : ℕ}
    (hb : g.skip k p = some b) : b ∈ g.layer k := by
  obtain ⟨l₁, l₂, hl, -, -, hskip⟩ := hp.split h
  rw [hb] at hskip
  rw [hl]
  exact mem_append_right l₁ (mem_of_mem_head? hskip.symm)

theorem insertEntry_append {l₁ l₂ : List (MemtableEntry K)}
    (h₁ : ∀ a ∈ l₁, memtableCmp a e = true) (h₂ : ∀ b ∈ l₂.head?, memtableCmp e b = true) :
    insertEntry e (l₁ ++ l₂) = l₁ ++ e :: l₂ := by
  induction l₁ with
  | nil =>
    cases l₂ with
    | nil => rfl
    | cons b l₂ =>
      have hb := h₂ b rfl
      rw [nil_append, insertEntry, if_neg (by simp [memtableCmp_asymm hb]), if_pos hb]
      rfl
  | cons a l₁ ih =>
    rw [cons_append, insertEntry, if_pos (h₁ a mem_cons_self),
      ih fun b hb => h₁ b (mem_cons_of_mem a hb)]
    rfl

/-- The lower bound of a key is found by the order of the table, if no number is above. -/
theorem lowerBound_split {m : Skiplist K} {l₁ l₂ : List (MemtableEntry K)}
    (hm : m.entries = l₁ ++ l₂) (h₁ : ∀ a ∈ l₁, memtableCmp a e = true)
    (h₂ : ∀ b ∈ l₂.head?, memtableCmp b e = false)
    (hseq : ∀ a ∈ m.entries, a.seq ≤ e.seq) : m.lowerBound e.key = l₂.head? := by
  rw [Skiplist.lowerBound, hm, find?_append, find?_eq_none.mpr fun a ha => ?_, Option.none_or]
  · obtain - | ⟨b, l₂⟩ := l₂
    · rfl
    · have hb := h₂ b rfl
      rw [← Bool.not_eq_true, memtableCmp_iff, not_or, not_lt] at hb
      exact find?_cons_of_pos (by simpa using hb.1)
  · rcases memtableCmp_iff.mp (h₁ a ha) with hk | ⟨-, hs⟩
    · simpa using hk
    · exact absurd (hseq a (hm ▸ mem_append_left _ ha)) hs.not_ge

theorem Layered.create (h : Layered g) (e : MemtableEntry K) (t : ι) :
    Layered (g.create e t) ∧ (∀ k, (g.create e t).layer k = g.layer k) ∧
      ∀ a < g.created, (g.create e t).data a = g.data a := by
  have hlt : ∀ k, ∀ a ∈ g.layer k, a < g.created + 1 := fun k a ha =>
    Nat.lt_succ_of_lt (h.created k a ha).2
  have hlayer : ∀ k, (g.create e t).layer k = g.layer k := fun k =>
    layer_eq (h.path k) (nodup_of_sorted (h.sorted k)) (hlt k)
  have hdata : ∀ a < g.created, (g.create e t).data a = g.data a := fun a ha =>
    update_of_ne ha.ne _ _
  refine ⟨⟨fun k => ?_, fun k => ?_, fun k a ha => ?_, fun k a ha => ?_, Nat.succ_pos _, ?_⟩,
    hlayer, hdata⟩
  · rw [hlayer]
    exact h.path k
  · rw [hlayer]
    exact (h.sorted k).imp_of_mem fun {a b} ha hb hab => by
      rwa [hdata a (h.created k a ha).2, hdata b (h.created k b hb).2]
  · rw [hlayer] at ha ⊢
    exact h.below k a ha
  · rw [hlayer] at ha
    exact ⟨(h.created k a ha).1, hlt k a ha⟩
  · rw [hlayer]
    exact (map_congr_left fun a ha => hdata a (h.created 0 a ha).2).trans h.table

/-- **A new node is linked** on layer `k`, after those before its entry. -/
theorem Layered.link (h : Layered g) (hp : SkipBefore g k p (g.data n))
    (hless : ∀ b ∈ g.skip k p, memtableCmp (g.data n) (g.data b) = true)
    (hn : n ≠ 0 ∧ n < g.created) (hmem : ∀ j, n ∈ g.layer j ↔ j < k) :
    Layered (g.link k p n (g.skip k p)) ∧
      ∀ j a, a ∈ (g.link k p n (g.skip k p)).layer j ↔ a ∈ g.layer j ∨ a = n ∧ j = k := by
  obtain ⟨l₁, l₂, hl, ⟨l₀, hl₀⟩, hbefore, hnext⟩ := hp.split h
  have hinsert : insertEntry (g.data n) ((g.layer k).map g.data) = (l₁ ++ n :: l₂).map g.data := by
    rw [hl, map_append, map_append, map_cons, insertEntry_append]
    · simpa using hbefore
    · intro b hb
      rw [head?_map, ← hnext] at hb
      obtain ⟨a, ha, rfl⟩ := Option.mem_map.mp hb
      exact hless a ha
  have hsorted : (l₁ ++ n :: l₂).Pairwise fun a b => memtableCmp (g.data a) (g.data b) = true := by
    refine (pairwise_map (f := g.data) (R := fun a b => memtableCmp a b = true)).mp ?_
    rw [← hinsert]
    exact insertEntry_sorted _ (pairwise_map.mpr (h.sorted k))
  have hall : ∀ a, a ∈ l₁ ++ n :: l₂ ↔ a ∈ g.layer k ∨ a = n := by
    intro a
    simp only [hl, mem_append, mem_cons]
    tauto
  have hpath : Path ((g.link k p n (g.skip k p)).skip k) (0 :: (l₁ ++ n :: l₂)) := by
    have hold := h.path k
    have hnodup : (0 :: g.layer k).Nodup := nodup_cons.mpr
      ⟨fun h0 => (h.created k 0 h0).1 rfl, nodup_of_sorted (h.sorted k)⟩
    have hnew : n ∉ 0 :: g.layer k := by simp [hn.1, hmem]
    rw [hl, ← cons_append, hl₀, append_assoc] at hold hnodup hnew
    rw [← cons_append, hl₀, append_assoc]
    have hnp : n ≠ p := fun heq => hnew (by simp [heq])
    exact hold.insert hnodup hnew (by simp [ConcurrentSkipList.link])
      (by simp [ConcurrentSkipList.link, hnp])
      fun b hb hbn => g.link_skip fun hcell => hcell.2.elim hbn hb
  have hk : (g.link k p n (g.skip k p)).layer k = l₁ ++ n :: l₂ := by
    refine layer_eq hpath (nodup_of_sorted hsorted) fun a ha => ?_
    rcases (hall a).mp ha with ha' | rfl
    · exact (h.created k a ha').2
    · exact hn.2
  have hj : ∀ j, j ≠ k → (g.link k p n (g.skip k p)).skip j = g.skip j ∧
      (g.link k p n (g.skip k p)).layer j = g.layer j := by
    intro j hjk
    have hj : (g.link k p n (g.skip k p)).skip j = g.skip j := update_of_ne hjk _ _
    exact ⟨hj, by rw [ConcurrentSkipList.layer, hj]; rfl⟩
  have hlayer : ∀ j a, a ∈ (g.link k p n (g.skip k p)).layer j ↔ a ∈ g.layer j ∨ a = n ∧ j = k := by
    intro j a
    by_cases hjk : j = k
    · subst hjk
      simp [hk, hall]
    · simp [(hj j hjk).2, hjk]
  refine ⟨⟨fun j => ?_, fun j => ?_, fun j a ha => ?_, fun j a ha => ?_, h.pos, ?_⟩, hlayer⟩
  · by_cases hjk : j = k
    · subst hjk
      rwa [hk]
    · rw [(hj j hjk).1, (hj j hjk).2]
      exact h.path j
  · by_cases hjk : j = k
    · subst hjk
      rwa [hk]
    · rw [(hj j hjk).2]
      exact h.sorted j
  · refine (hlayer j a).mpr (.inl ?_)
    rcases (hlayer (j + 1) a).mp ha with ha' | ⟨rfl, rfl⟩
    · exact h.below j a ha'
    · exact (hmem j).mpr j.lt_succ_self
  · rcases (hlayer j a).mp ha with ha' | ⟨rfl, rfl⟩
    · exact h.created j a ha'
    · exact hn
  · cases k with
    | zero =>
      rw [hk]
      exact hinsert.symm.trans (congrArg _ h.table)
    | succ k =>
      rw [(hj 0 k.succ_ne_zero.symm).2]
      exact h.table

end Layers

end HedgeDB
