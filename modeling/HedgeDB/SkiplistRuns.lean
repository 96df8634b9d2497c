/-
HedgeDB/SkiplistRuns.lean

Runs of the skip list.

A thread relies on the nodes its search has met being on their layers, on those it has
locked and checked being neighbours still, and on its own node being where it has linked it
(`SkipPc.Ok`).  Links change only at locked nodes, so the accesses of the others keep that.
-/
import HedgeDB.ConcurrentSkiplist

namespace HedgeDB

open LinkedPath ConcurrentSkipList Interleave List Function Option

variable {ι K : Type*} [LinearOrder K]

/-! ### What a thread relies on -/

/-- The search has found the neighbours of the entry on the layers from `layer` up. -/
def AddCall.Placed (c : AddCall K) (g : ConcurrentSkipList ι K) (layer : ℕ) : Prop :=
  ∀ k, layer ≤ k → k < maxHeight → SkipBefore g k (c.preds k) c.data ∧
    ∀ b ∈ c.succs k, b ∈ g.layer k ∧ memtableCmp c.data (g.data b) = true

/-- The call is at `layer` of `lockNodesForChange` or of the loop that links the node; on the
layers from `lo` up to `hi` the neighbours are neighbours still, and locked. -/
structure AddCall.At (c : AddCall K) (g : ConcurrentSkipList ι K) (layer lo hi : ℕ) : Prop where
  placed : c.Placed g 0
  height : layer < c.height ∧ hi ≤ c.height ∧ c.height ≤ maxHeight
  adjacent : ∀ k, lo ≤ k → k < hi → g.skip k (c.preds k) = c.succs k ∧ c.preds k ∈ c.guards

/-- Node `n` is in the list, under the key and the sequence number of `e`. -/
def SkipStored (g : ConcurrentSkipList ι K) (e : MemtableEntry K) (n : ℕ) : Prop :=
  n ∈ g.layer 0 ∧ (g.data n).key = e.key ∧ (g.data n).seq = e.seq

/-- Node `n` is the one the call has created, and is on the layers below `layer`. -/
structure AddCall.Creates (c : AddCall K) (t : ι) (g : ConcurrentSkipList ι K)
    (n layer : ℕ) : Prop where
  created : n ≠ 0 ∧ n < g.created
  node : g.data n = c.data ∧ g.creator n = some t
  mem : ∀ k, n ∈ g.layer k ↔ k < layer

def SkipPc.Ok (t : ι) (g : ConcurrentSkipList ι K) : SkipPc K → Prop
  | findInsertionPoint c layer pred hit => layer < maxHeight ∧ SkipBefore g layer pred c.data ∧
    (hit = none → c.Placed g (layer + 1)) ∧ ∀ b ∈ hit, SkipStored g c.data b
  | lock c layer => c.At g layer 0 layer
  | check c layer => c.At g layer 0 layer ∧ c.preds layer ∈ c.guards
  | link c n layer => c.At g layer layer c.height ∧ c.Creates t g n layer
  | waitLinked c n | setFullyLinked c n | added c n => SkipStored g c.data n
  | unlock c result => ∀ n ∈ result, SkipStored g c.data n
  | findNode e layer pred => SkipBefore g layer pred e
  | idle | found _ _ => True

/-- The nodes a thread has locked. -/
def SkipPc.guards : SkipPc K → List ℕ
  | lock c _ | check c _ | link c _ _ | setFullyLinked c _ | unlock c _ => c.guards
  | _ => []

/-- The entry that the thread is to add. -/
def SkipPc.asked : SkipPc K → Option (MemtableEntry K)
  | findInsertionPoint c _ _ _ | waitLinked c _ | lock c _ | check c _ | link c _ _
  | setFullyLinked c _ | unlock c _ => some c.data
  | _ => none

/-- What thread `t` may assert of its place and of its locks. -/
structure SkipPc.Holds (t : ι) (g : ConcurrentSkipList ι K) (l : SkipPc K) : Prop where
  ok : l.Ok t g
  nodup : l.guards.Nodup
  locked : ∀ p ∈ l.guards, p < g.created ∧ g.spinLock p = some t

/-- The list has grown: what was created is unchanged, what was linked still is. -/
structure SkipGrows (g g' : ConcurrentSkipList ι K) : Prop where
  node : ∀ a < g.created, g'.data a = g.data a ∧ g'.creator a = g.creator a
  created : g.created ≤ g'.created
  mem : ∀ k, ∀ a ∈ g.layer k, a ∈ g'.layer k

/-- Moreover nothing has changed where thread `u` has a lock, and its own node is where it
was. -/
structure Spares (u : ι) (g g' : ConcurrentSkipList ι K) : Prop extends SkipGrows g g' where
  locked : ∀ a < g.created, g.spinLock a = some u → g'.spinLock a = some u ∧
    ∀ k e, SkipBefore g k a e → g'.skip k a = g.skip k a
  own : ∀ a < g.created, g.creator a = some u → ∀ k, a ∈ g'.layer k → a ∈ g.layer k

section Stable

variable {g g' : ConcurrentSkipList ι K} {e : MemtableEntry K} {c : AddCall K} {k n p : ℕ}
  {l : SkipPc K} {t : ι}

theorem SkipBefore.grow (h : Layered g) (hg : SkipGrows g g') (hp : SkipBefore g k p e) :
    SkipBefore g' k p e :=
  hp.imp_right fun ⟨hmem, hlt⟩ =>
    ⟨hg.mem k p hmem, by rwa [(hg.node p (h.created k p hmem).2).1]⟩

theorem AddCall.Placed.grow (h : Layered g) (hg : SkipGrows g g') (hc : c.Placed g k) :
    c.Placed g' k := by
  intro j hj hmax
  obtain ⟨hbefore, hahead⟩ := hc j hj hmax
  refine ⟨hbefore.grow h hg, fun a ha => ?_⟩
  obtain ⟨hmem, hlt⟩ := hahead a ha
  exact ⟨hg.mem j a hmem, by rwa [(hg.node a (h.created j a hmem).2).1]⟩

theorem SkipStored.grow (h : Layered g) (hg : SkipGrows g g') (hn : SkipStored g e n) :
    SkipStored g' e n := by
  rw [SkipStored, (hg.node n (h.created 0 n hn.1).2).1]
  exact ⟨hg.mem 0 n hn.1, hn.2⟩

/-- **What a thread asserts outlasts what spares it.** -/
theorem SkipPc.Holds.grow (h : Layered g) (hs : Spares t g g') (hl : l.Holds t g) :
    l.Holds t g' := by
  obtain ⟨hok, hnodup, hlocked⟩ := hl
  have hg := hs.toSkipGrows
  refine ⟨?_, hnodup, fun p hp => ?_⟩
  · have hat : ∀ {c : AddCall K} {layer lo hi}, l.guards = c.guards → c.At g layer lo hi →
        c.At g' layer lo hi := by
      intro c layer lo hi hguards hc
      refine ⟨hc.placed.grow h hg, hc.height, fun k hlo hk => ?_⟩
      obtain ⟨hskip, hmem⟩ := hc.adjacent k hlo hk
      obtain ⟨hlt, hlock⟩ := hlocked _ (hguards ▸ hmem)
      have hmax : k < maxHeight := (hk.trans_le hc.height.2.1).trans_le hc.height.2.2
      rw [(hs.locked _ hlt hlock).2 k c.data (hc.placed k k.zero_le hmax).1]
      exact ⟨hskip, hmem⟩
    cases l with
    | findInsertionPoint c layer pred found =>
      obtain ⟨hlayer, hbefore, hplaced, hstored⟩ := hok
      exact ⟨hlayer, hbefore.grow h hg, fun hf => (hplaced hf).grow h hg,
        fun b hb => (hstored b hb).grow h hg⟩
    | lock c layer => exact hat rfl hok
    | check c layer => exact ⟨hat rfl hok.1, hok.2⟩
    | link c n layer =>
      obtain ⟨hc, ⟨h0, hlt⟩, hnode, hmem⟩ := hok
      obtain ⟨hdata, hcreator⟩ := hg.node n hlt
      refine ⟨hat rfl hc, ⟨h0, hlt.trans_le hg.created⟩, ?_, fun k => ?_⟩
      · rw [hdata, hcreator]
        exact hnode
      · rw [← hmem]
        exact ⟨hs.own n hlt hnode.2 k, hg.mem k n⟩
    | unlock c result => exact fun n hn => (hok n hn).grow h hg
    | waitLinked c n => exact SkipStored.grow h hg hok
    | setFullyLinked c n => exact SkipStored.grow h hg hok
    | added c n => exact SkipStored.grow h hg hok
    | findNode e layer pred => exact SkipBefore.grow h hg hok
    | idle => trivial
    | found e node => trivial
  · obtain ⟨hlt, hlock⟩ := hlocked p hp
    exact ⟨hlt.trans_le hg.created, (hs.locked p hlt hlock).1⟩

end Stable

/-! ### What one access does -/

/-- An access of thread `t` leaves the list `g'` and the thread at `l'`. -/
structure SkipEffect (t : ι) (g g' : ConcurrentSkipList ι K) (l' : SkipPc K) : Prop where
  layered : Layered g'
  holds : l'.Holds t g'
  spares : ∀ u, u ≠ t → Spares u g g'

section Access

variable {g g' : ConcurrentSkipList ι K} {l l' : SkipPc K} {c : AddCall K}
  {height layer n pred : ℕ} {t : ι}

theorem load_effect (h : Layered g) (hl' : l'.Holds t g) : SkipEffect t g g l' :=
  ⟨h, hl', fun _ _ =>
    ⟨⟨fun _ _ => ⟨rfl, rfl⟩, le_rfl, fun _ _ => id⟩, fun _ _ hu => ⟨hu, fun _ _ _ => rfl⟩,
      fun _ _ _ _ => id⟩⟩

theorem setLock_effect {p : ℕ} {b : Option ι} (h : Layered g) (hl' : l'.Holds t (g.setLock p b))
    (hfree : ∀ u, u ≠ t → g.spinLock p ≠ some u) : SkipEffect t g (g.setLock p b) l' := by
  refine ⟨{ h with }, hl', fun u hu =>
    ⟨⟨fun _ _ => ⟨rfl, rfl⟩, le_rfl, fun _ _ => id⟩, fun a _ ha => ⟨?_, fun _ _ _ => rfl⟩,
      fun _ _ _ _ => id⟩⟩
  have hne : a ≠ p := fun heq => hfree u hu (heq ▸ ha)
  exact (update_of_ne hne _ _).trans ha

theorem begin_holds (e : MemtableEntry K) : (AddCall.begin e).Holds t g := by
  refine ⟨⟨Nat.lt_succ_self 23, .inl rfl, fun _ k hk hk' => ?_, nofun⟩, .nil, nofun⟩
  exact absurd hk' (not_lt.mpr hk)

theorem descend_holds {node found : Option ℕ} (h : Layered g) (hlayer : layer < maxHeight)
    (hbefore : SkipBefore g layer pred c.data)
    (hplaced : found = none → c.Placed g (layer + 1) ∧
      ∀ b ∈ node, b ∈ g.layer layer ∧ memtableCmp c.data (g.data b) = true)
    (hstored : ∀ b ∈ found, SkipStored g c.data b)
    (hd : c.descend height layer pred node found = some l') : l'.Holds t g := by
  have hplaced' : found = none → { c with
      preds := update c.preds layer pred
      succs := update c.succs layer (found.or node) }.Placed g layer := by
    rintro rfl k hk hmax
    obtain ⟨habove, hahead⟩ := hplaced rfl
    rcases hk.eq_or_lt with rfl | hlt
    · simpa using ⟨hbefore, hahead⟩
    · simpa [hlt.ne'] using habove k hlt hmax
  cases layer with
  | succ layer =>
    cases hd
    exact ⟨⟨Nat.lt_of_succ_lt hlayer, hbefore.of_le h (Nat.le_succ _), hplaced', hstored⟩,
      .nil, nofun⟩
  | zero =>
    cases found with
    | none =>
      obtain ⟨hheight, hs⟩ := ite_none_right_eq_some.mp hd
      cases hs
      exact ⟨⟨hplaced' rfl, ⟨hheight.1, Nat.zero_le _, hheight.2⟩,
        fun k _ hk => absurd hk k.not_lt_zero⟩, .nil, nofun⟩
    | some b =>
      cases hd
      exact ⟨hstored b rfl, .nil, nofun⟩

theorem greater_eq_true {e : MemtableEntry K} {b : Option ℕ} (h : g.greater e b = true) :
    ∃ a, b = some a ∧ memtableCmp (g.data a) e = true := by
  cases b with
  | none => cases h
  | some a => exact ⟨a, rfl, h⟩

theorem findInsertionPoint_effect {found : Option ℕ} (h : Layered g)
    (hl : (SkipPc.findInsertionPoint c layer pred found).Ok t g)
    (hrun : skipStep t height g (.findInsertionPoint c layer pred found) = some (g', l')) :
    SkipEffect t g g' l' := by
  obtain ⟨hlayer, hbefore, hplaced, hstored⟩ := hl
  rw [skipStep] at hrun
  split at hrun
  · next hgreater =>
    cases hrun
    obtain ⟨b, hb, hlt⟩ := greater_eq_true hgreater
    rw [hb]
    exact load_effect h
      ⟨⟨hlayer, .inr ⟨hbefore.next_mem h hb, hlt⟩, hplaced, hstored⟩, .nil, nofun⟩
  · next hgreater =>
    obtain ⟨l'', hd, heq⟩ := map_eq_some_iff.mp hrun
    cases heq
    refine load_effect h (descend_holds h hlayer hbefore (fun hnone => ?_) (fun b hb => ?_) hd)
    · split at hnone
      · next hhit => simp [hnone, less] at hhit
      · next hhit =>
        refine ⟨hplaced hnone, fun b hb => ⟨hbefore.next_mem h hb, ?_⟩⟩
        rw [mem_def.mp hb, hnone] at hhit
        simpa [less] using hhit
    · split at hb
      · next hhit =>
        -- neither before nor after the entry: it is the entry
        rw [mem_def.mp hb] at hgreater hhit
        refine ⟨h.mem_of_le layer.zero_le (hbefore.next_mem h hb), memtableCmp_total ?_ ?_⟩
        · simpa [greater] using hgreater
        · simpa [less] using (Bool.and_eq_true_iff.mp hhit).2
      · exact hstored b hb

theorem findNode_effect {e : MemtableEntry K} (h : Layered g) (hl : SkipBefore g layer pred e)
    (hrun : skipStep t height g (.findNode e layer pred) = some (g', l')) :
    SkipEffect t g g' l' := by
  rw [skipStep] at hrun
  split_ifs at hrun with hgreater hless
  · cases hrun
    obtain ⟨b, hb, hlt⟩ := greater_eq_true hgreater
    rw [hb]
    exact load_effect h ⟨.inr ⟨hl.next_mem h hb, hlt⟩, .nil, nofun⟩
  · cases hrun
    exact load_effect h ⟨hl.of_le h layer.pred_le, .nil, nofun⟩
  · cases hrun
    exact load_effect h ⟨trivial, .nil, nofun⟩

/-- What the last load of a lookup has read: the first node not before the entry. -/
theorem findNode_found {e : MemtableEntry K} {node : Option ℕ} (h : Layered g)
    (hl : SkipBefore g layer pred e)
    (hrun : skipStep t height g (.findNode e layer pred) = some (g', .found e node)) :
    ∃ l₁ l₂, g.layer 0 = l₁ ++ l₂ ∧ (∀ a ∈ l₁, memtableCmp (g.data a) e = true) ∧
      node = l₂.head? ∧ g.greater e node = false := by
  rw [skipStep] at hrun
  split_ifs at hrun with hgreater hless
  · cases hrun
  · cases hrun
  cases hrun
  rw [Bool.not_eq_true] at hgreater
  by_cases hlast : g.less e (g.skip layer pred) = true
  · obtain rfl : layer = 0 := by simpa [hlast] using hless
    obtain ⟨l₁, l₂, hl₁, -, hlt, hskip⟩ := hl.split h
    exact ⟨l₁, l₂, hl₁, hlt, hskip, hgreater⟩
  · -- the load has met the entry itself, on some layer
    obtain ⟨b, hb⟩ : ∃ b, g.skip layer pred = some b :=
      ne_none_iff_exists'.mp fun hnone => hlast (by rw [hnone]; rfl)
    obtain ⟨l₁, l₂, hl₁⟩ := append_of_mem (h.mem_of_le layer.zero_le (hl.next_mem h hb))
    refine ⟨l₁, b :: l₂, hl₁, fun a ha => ?_, hb, hgreater⟩
    rw [hb] at hgreater hlast
    obtain ⟨hkey, hseq⟩ := memtableCmp_total hgreater (Bool.not_eq_true _ ▸ hlast)
    have hs := h.sorted 0
    rw [hl₁] at hs
    have hab := (pairwise_append.mp hs).2.2 a ha b mem_cons_self
    rwa [memtableCmp_iff, hkey, hseq, ← memtableCmp_iff] at hab

theorem create_effect (h : Layered g) (hl : (SkipPc.check c layer).Holds t g)
    (hcheck : g.skip layer (c.preds layer) = c.succs layer) (hlast : ¬layer + 1 < c.height) :
    SkipEffect t g (g.create c.data t) (.link c g.created 0) := by
  obtain ⟨⟨⟨hplaced, ⟨hlt, -, hmax⟩, hadj⟩, hguard⟩, hnodup, hlocked⟩ := hl
  obtain ⟨hlayered, hlayer, hdata⟩ := h.create c.data t
  have hgrows : SkipGrows g (g.create c.data t) :=
    ⟨fun a ha => ⟨hdata a ha, update_of_ne ha.ne _ _⟩, Nat.le_succ _,
      fun k a ha => (hlayer k).symm ▸ ha⟩
  refine ⟨hlayered, ⟨⟨⟨hplaced.grow h hgrows, ⟨Nat.zero_lt_of_lt hlt, le_rfl, hmax⟩,
    fun k _ hk => ?_⟩, ⟨h.pos.ne', Nat.lt_succ_self _⟩,
    ⟨update_self _ _ _, update_self _ _ _⟩, fun k => ?_⟩, hnodup, fun p hp => ?_⟩,
    fun u _ => ⟨hgrows, fun _ _ hu => ⟨hu, fun _ _ _ => rfl⟩,
      fun a _ _ k ha => hlayer k ▸ ha⟩⟩
  · rcases Nat.lt_or_ge k layer with hk' | hk'
    · exact hadj k k.zero_le hk'
    · obtain rfl : k = layer := by omega
      exact ⟨hcheck, hguard⟩
  · rw [hlayer]
    exact ⟨fun hk => absurd (h.created k _ hk).2 (lt_irrefl _), fun hk => absurd hk k.not_lt_zero⟩
  · exact ⟨(hlocked p hp).1.trans (Nat.lt_succ_self _), (hlocked p hp).2⟩

theorem link_effect (h : Layered g) (hl : (SkipPc.link c n layer).Holds t g) :
    SkipEffect t g (g.link layer (c.preds layer) n (c.succs layer))
      (if layer + 1 < c.height then .link c n (layer + 1) else .setFullyLinked c n) := by
  obtain ⟨⟨⟨hplaced, ⟨hlt, -, hmax⟩, hadj⟩, hn⟩, hnodup, hlocked⟩ := hl
  obtain ⟨hbefore, hahead⟩ := hplaced layer layer.zero_le (hlt.trans_le hmax)
  obtain ⟨hnext, hguard⟩ := hadj layer le_rfl hlt
  obtain ⟨hlayered, hlayer⟩ := h.link (n := n) (by rwa [hn.node.1])
    (fun b hb => by rw [hn.node.1]; exact (hahead b (hnext ▸ hb)).2) hn.created hn.mem
  rw [hnext] at hlayered hlayer
  have hgrows : SkipGrows g (g.link layer (c.preds layer) n (c.succs layer)) :=
    ⟨fun _ _ => ⟨rfl, rfl⟩, le_rfl, fun k a ha => (hlayer k a).mpr (.inl ha)⟩
  refine ⟨hlayered, ?_, fun u hu => ⟨hgrows, fun a _ ha => ⟨ha, fun k e he => g.link_skip ?_⟩,
    fun a _ ha k hk => ?_⟩⟩
  · split
    · next hmore =>
      refine ⟨⟨⟨hplaced.grow h hgrows, ⟨hmore, le_rfl, hmax⟩, fun k hk hk' => ?_⟩,
        ⟨hn.created, hn.node, fun k => ?_⟩⟩, hnodup, hlocked⟩
      · rw [g.link_skip fun hcell => (Nat.lt_of_succ_le hk).ne' hcell.1]
        exact hadj k (Nat.le_of_succ_le hk) hk'
      · rw [hlayer, hn.mem]
        omega
    · refine ⟨⟨(hlayer 0 n).mpr ?_, ?_⟩, hnodup, hlocked⟩
      · rw [hn.mem]
        omega
      · show (g.data n).key = _ ∧ (g.data n).seq = _
        rw [hn.node.1]
        exact ⟨rfl, rfl⟩
  · -- the predecessor is locked by `t`, and the node is not on the layer
    rintro ⟨rfl, rfl | rfl⟩
    · exact he.elim hn.created.1 fun hmem => lt_irrefl _ ((hn.mem _).mp hmem.1)
    · exact hu (some.inj (ha.symm.trans (hlocked _ hguard).2))
  · rcases (hlayer k a).mp hk with hold | ⟨rfl, -⟩
    · exact hold
    · exact absurd (some.inj (ha.symm.trans hn.node.2)) hu

theorem lock_effect (h : Layered g) (hl : (SkipPc.lock c layer).Holds t g)
    (hrun : skipStep t height g (.lock c layer) = some (g', l')) : SkipEffect t g g' l' := by
  obtain ⟨hat, hnodup, hlocked⟩ := hl
  rw [skipStep] at hrun
  split_ifs at hrun with hlocks hheld
  · cases hrun
    have hfree : g.spinLock (c.preds layer) = none := not_isSome_iff_eq_none.mp hheld
    have hlt := (hat.placed layer layer.zero_le
      (hat.height.1.trans_le hat.height.2.2)).1.lt_created h
    refine setLock_effect h ⟨⟨⟨hat.placed, hat.height, fun k hk hk' =>
      (hat.adjacent k hk hk').imp_right (mem_cons_of_mem _)⟩, mem_cons_self⟩,
      nodup_cons.mpr ⟨fun hmem => ?_, hnodup⟩, fun p hp => ?_⟩ fun u _ => by rw [hfree]; exact nofun
    · rw [(hlocked _ hmem).2] at hfree
      cases hfree
    · by_cases hpp : p = c.preds layer
      · subst hpp
        exact ⟨hlt, update_self _ _ _⟩
      · obtain ⟨hp', hlock⟩ := hlocked p ((mem_cons.mp hp).resolve_left hpp)
        exact ⟨hp', (update_of_ne hpp _ _).trans hlock⟩
  · cases hrun
    refine load_effect h ⟨⟨hat, ?_⟩, hnodup, hlocked⟩
    cases layer with
    | zero => exact absurd rfl hlocks
    | succ layer =>
      rw [show c.preds (layer + 1) = c.preds layer by simpa [AddCall.locks] using hlocks]
      exact (hat.adjacent layer layer.zero_le layer.lt_succ_self).2

theorem unlock_effect {result : Option ℕ} (h : Layered g) (hl : (SkipPc.unlock c result).Holds t g)
    (hrun : c.unlock result g = (g', l')) : SkipEffect t g g' l' := by
  obtain ⟨hok, hnodup, hlocked⟩ := hl
  unfold AddCall.unlock at hrun
  split at hrun
  · next p guards hguards =>
    cases hrun
    change c.guards.Nodup at hnodup
    change ∀ p ∈ c.guards, _ at hlocked
    rw [hguards] at hnodup hlocked
    obtain ⟨hp, hnodup'⟩ := nodup_cons.mp hnodup
    refine setLock_effect h ⟨hok, hnodup', fun q hq => ?_⟩ fun u hu heq => ?_
    · obtain ⟨hlt, hlock⟩ := hlocked q (mem_cons_of_mem p hq)
      have hne : q ≠ p := fun heq => hp (heq ▸ hq)
      exact ⟨hlt, (update_of_ne hne _ _).trans hlock⟩
    · exact hu (some.inj (heq.symm.trans (hlocked p mem_cons_self).2))
  · cases hrun
    exact load_effect h (begin_holds c.data)
  · cases hrun
    exact load_effect h ⟨hok _ rfl, .nil, nofun⟩

/-- **What one access does.** -/
theorem skipStep_effect (h : Layered g) (hl : l.Holds t g)
    (hrun : skipStep t height g l = some (g', l')) : SkipEffect t g g' l' := by
  cases l with
  | idle => cases hrun
  | added c n => cases hrun
  | found e node => cases hrun
  | findInsertionPoint c layer pred found => exact findInsertionPoint_effect h hl.ok hrun
  | findNode e layer pred => exact findNode_effect h hl.ok hrun
  | waitLinked c n =>
    obtain ⟨-, hs⟩ := ite_none_right_eq_some.mp hrun
    cases hs
    exact load_effect h ⟨hl.ok, .nil, nofun⟩
  | lock c layer => exact lock_effect h hl hrun
  | check c layer =>
    rw [skipStep] at hrun
    split_ifs at hrun with hcheck hmore
    · cases hrun
      exact load_effect h ⟨nofun, hl.nodup, hl.locked⟩
    · cases hrun
      obtain ⟨⟨⟨hplaced, hheight, hadj⟩, hguard⟩, hnodup, hlocked⟩ := hl
      refine load_effect h ⟨⟨hplaced, ⟨hmore, hmore.le, hheight.2.2⟩, fun k hk hk' => ?_⟩,
        hnodup, hlocked⟩
      rcases (Nat.le_of_lt_succ hk').eq_or_lt with rfl | hlt
      · exact ⟨not_not.mp hcheck, hguard⟩
      · exact hadj k hk hlt
    · cases hrun
      exact create_effect h hl (not_not.mp hcheck) hmore
  | link c n layer =>
    cases hrun
    exact link_effect h hl
  | setFullyLinked c n =>
    cases hrun
    obtain ⟨hok, hnodup, hlocked⟩ := hl
    have hok' : ∀ r ∈ some n, SkipStored g c.data r := fun r hr => some.inj hr ▸ hok
    exact ⟨{ h with }, ⟨hok', hnodup, hlocked⟩, fun u _ => ⟨⟨fun _ _ => ⟨rfl, rfl⟩, le_rfl,
      fun _ _ => id⟩, fun _ _ hu => ⟨hu, fun _ _ _ => rfl⟩, fun _ _ _ _ => id⟩⟩
  | unlock c result => exact unlock_effect h hl (some.inj hrun)

theorem skipAct_effect {a : SkipAct K} (h : Layered g) (hl : l.Holds t g)
    (hact : skipAct t a g l = some (g', l')) : SkipEffect t g g' l' := by
  cases a with
  | addOrGetData e =>
    obtain ⟨-, hs⟩ := ite_none_right_eq_some.mp hact
    cases hs
    exact load_effect h (begin_holds e)
  | lowerBound e =>
    obtain ⟨-, hs⟩ := ite_none_right_eq_some.mp hact
    cases hs
    exact load_effect h ⟨.inl rfl, .nil, nofun⟩
  | run height => exact skipStep_effect h hl hact

theorem skipStep_asked (hl : l.Holds t g) (h : skipStep t height g l = some (g', l')) :
    (∀ e ∈ l'.asked, e ∈ l.asked) ∧ ∀ e ∈ g'.table.entries, e ∈ g.table.entries ∨ e ∈ l.asked := by
  cases l with
  | findInsertionPoint c layer pred found =>
    rw [skipStep] at h
    split at h
    · cases h
      exact ⟨fun _ => id, fun _ => .inl⟩
    · obtain ⟨l'', hd, heq⟩ := map_eq_some_iff.mp h
      cases heq
      unfold AddCall.descend at hd
      grind [SkipPc.asked]
  | link c n layer =>
    cases h
    refine ⟨?_, fun e he => ?_⟩
    · split <;> exact fun _ => id
    · rcases layer with - | layer
      · rcases mem_insertEntry he with rfl | hold
        · exact .inr (congrArg some hl.ok.2.node.1.symm)
        · exact .inl hold
      · exact .inl he
  | unlock c result =>
    have h' : c.unlock result g = (g', l') := some.inj h
    unfold AddCall.unlock at h'
    grind [SkipPc.asked, AddCall.begin, setLock]
  | _ => grind [skipStep, SkipPc.asked, setLock, create]

theorem skipAct_asked {a : SkipAct K} (hl : l.Holds t g)
    (hact : skipAct t a g l = some (g', l')) :
    (∀ e ∈ l'.asked, e ∈ l.asked ∨ a = .addOrGetData e) ∧
      ∀ e ∈ g'.table.entries, e ∈ g.table.entries ∨ e ∈ l.asked := by
  cases a with
  | run height =>
    obtain ⟨hasked, htable⟩ := skipStep_asked hl hact
    exact ⟨fun e he => .inl (hasked e he), htable⟩
  | _ => grind [skipAct, SkipPc.asked, AddCall.begin]

theorem skipAct_table {a : SkipAct K} (hact : skipAct t a g l = some (g', l')) :
    g.table.entries ⊆ g'.table.entries := by
  cases a with
  | addOrGetData | lowerBound => grind [skipAct]
  | run height =>
    change skipStep t height g l = some (g', l') at hact
    cases l with
    | findInsertionPoint c layer pred found =>
      rw [skipStep] at hact
      split at hact
      · cases hact
        exact Subset.refl _
      · obtain ⟨l'', -, heq⟩ := map_eq_some_iff.mp hact
        cases heq
        exact Subset.refl _
    | link c n layer =>
      cases hact
      rcases layer with - | layer
      · exact fun e he => mem_insertEntry_of_mem he
      · exact Subset.refl _
    | unlock c result =>
      have hunlock : c.unlock result g = (g', l') := some.inj hact
      unfold AddCall.unlock at hunlock
      grind [setLock]
    | _ => grind [skipStep, setLock, create]

end Access

/-! ### Runs -/

/-- Two writers look for their places at the same time; the second finds that the link it is
to change has moved, and tries again.  Then a lookup of the first key is at its last load. -/
def twoWriters : Option (State ℕ (ConcurrentSkipList ℕ ℕ) (SkipPc ℕ)) :=
  Run.exec (skipList ℕ ℕ).step (newSkipList ℕ ⟨0, 0, []⟩)
    (.thread 0 (.addOrGetData ⟨5, 0, [7]⟩) :: replicate 24 (.thread 0 (.run 1)) ++
      .thread 1 (.addOrGetData ⟨8, 1, [9]⟩) :: replicate 24 (.thread 1 (.run 2)) ++
      replicate 6 (.thread 0 (.run 1)) ++ replicate 39 (.thread 1 (.run 2)) ++
      .thread 0 (.lowerBound ⟨5, 2, []⟩) :: replicate 23 (.thread 0 (.run 1)))

theorem exists_twoWriters : ∃ s, twoWriters = some s := isSome_iff_exists.mp rfl

section Runs

variable {s s' : State ι (ConcurrentSkipList ι K) (SkipPc K)}
  {value : MemtableEntry K} {as : List (Label ι (SkipAct K) Empty)}

/-- What holds after a run `as`; only what its calls were to add is in the table. -/
def SkipListOk (as : List (Label ι (SkipAct K) Empty)) :
    State ι (ConcurrentSkipList ι K) (SkipPc K) → Prop :=
  Holds
    (fun g => Layered g ∧ ∀ e ∈ g.table.entries, ∃ t, .thread t (.addOrGetData e) ∈ as)
    fun t g l => l.Holds t g ∧ ∀ e ∈ l.asked, ∃ t, .thread t (.addOrGetData e) ∈ as

variable [DecidableEq ι] (hrun : Run.exec (skipList ι K).step (newSkipList ι value) as = some s)

include hrun

theorem skipList_run : SkipListOk as s := by
  have hstart : SkipListOk as (newSkipList ι value) :=
    ⟨⟨⟨fun _ => ⟨rfl, trivial⟩, fun _ => .nil, nofun, nofun, Nat.one_pos, rfl⟩, nofun⟩,
      fun _ => ⟨⟨trivial, .nil, nofun⟩, nofun⟩⟩
  refine exec_holds (C := fun _ a => a ∈ as) (fun s t a g l h ha hact => ?_)
    (fun _ b => b.elim) hstart (Run.allSteps_of_forall fun _ => id) hrun
  obtain ⟨⟨h, htable⟩, ht⟩ := h
  obtain ⟨hlayered, hholds, hspares⟩ := skipAct_effect h (ht t).1 hact
  obtain ⟨hasked, hnew⟩ := skipAct_asked (ht t).1 hact
  refine ⟨⟨hlayered, fun e he => ?_⟩, ⟨hholds, fun e he => ?_⟩,
    fun u hu => ⟨(ht u).1.grow h (hspares u hu), (ht u).2⟩⟩
  · exact (hnew e he).elim (htable e) ((ht t).2 e)
  · rcases hasked e he with hold | rfl
    · exact (ht t).2 e hold
    · exact ⟨t, ha⟩

omit hrun in
theorem table_subset_of_run {bs : List (Label ι (SkipAct K) Empty)}
    (hrest : Run.exec (skipList ι K).step s bs = some s') :
    s.shared.table.entries ⊆ s'.shared.table.entries := by
  refine Run.exec_invariant (I := fun u => s.shared.table.entries ⊆ u.shared.table.entries)
    (fun u a u' hu _ hstep => ?_) (Subset.refl _) (Run.allSteps_true s bs) hrest
  cases a with
  | thread t a =>
    obtain ⟨g, l, hact, rfl⟩ := step_thread hstep
    exact Subset.trans hu (skipAct_table hact)
  | background b => exact b.elim

/-- **Concurrent calls are insertions one after the other**: in every state the list holds the
entries that the table has taken, each as the node was linked on the lowest layer.  A call was
to add each of them, what a call that has returned was to add is among them, and they stay
there however the run goes on. -/
theorem contents_eq_table : s.shared.contents = s.shared.table.entries ∧
    (∀ e ∈ s.shared.contents, ∃ t, .thread t (.addOrGetData e) ∈ as) ∧
    (∀ t c n, s.threads t = .added c n →
      ∃ e ∈ s.shared.contents, e.key = c.data.key ∧ e.seq = c.data.seq) ∧
    ∀ bs s', Run.exec (skipList ι K).step s bs = some s' →
      s.shared.contents ⊆ s'.shared.contents := by
  obtain ⟨⟨h, hasked⟩, ht⟩ := skipList_run hrun
  refine ⟨h.table, fun e he => hasked e (h.table ▸ he), fun t c n hadded => ?_,
    fun bs s' hrest => ?_⟩
  · have hok := (ht t).1.ok
    rw [hadded] at hok
    exact ⟨_, mem_map_of_mem hok.1, hok.2⟩
  · have hwhole : Run.exec (skipList ι K).step (newSkipList ι value) (as ++ bs) = some s' := by
      rw [Run.exec_append, hrun, bind_some, hrest]
    obtain ⟨⟨h', -⟩, -⟩ := skipList_run hwhole
    have hcontents : s.shared.contents = s.shared.table.entries := h.table
    have hcontents' : s'.shared.contents = s'.shared.table.entries := h'.table
    rw [hcontents, hcontents']
    exact table_subset_of_run hrest

omit hrun in
theorem contents_eq_table_twoWriters :
    ∃ s, twoWriters = some s ∧ s.shared.contents = s.shared.table.entries :=
  exists_twoWriters.imp fun _ hs => ⟨hs, (contents_eq_table hs).1⟩

/-- **A lookup reads the table it finds at its last load**: what it returns is the lower bound
there, if no stored number is above the one it looks for. -/
theorem lookup_reads_table {t : ι} {height : ℕ}
    (hstep : (skipList ι K).step s (.thread t (.run height)) = some s') {e : MemtableEntry K}
    {layer pred : ℕ} {node : Option ℕ} (hfind : s.threads t = .findNode e layer pred)
    (hfound : s'.threads t = .found e node) (hseq : ∀ a ∈ s.shared.table.entries, a.seq ≤ e.seq) :
    node.map s.shared.data = s.shared.table.lowerBound e.key := by
  obtain ⟨⟨h, -⟩, ht⟩ := skipList_run hrun
  have hok := (ht t).1.ok
  obtain ⟨g', l', hact, rfl⟩ := step_thread hstep
  obtain rfl : l' = .found e node := (update_self t l' s.threads).symm.trans hfound
  rw [hfind] at hok hact
  have hload : skipStep t height s.shared (.findNode e layer pred) = some (g', .found e node) := hact
  obtain ⟨l₁, l₂, hl, hlt, rfl, hgreater⟩ := findNode_found h hok hload
  have htable : s.shared.table.entries = l₁.map s.shared.data ++ l₂.map s.shared.data := by
    rw [← h.table, hl, map_append]
  rw [lowerBound_split htable ?_ ?_ hseq, head?_map]
  · simpa using hlt
  · rw [head?_map]
    intro b hb
    obtain ⟨n, hn, rfl⟩ := mem_map.mp hb
    rw [mem_def.mp hn] at hgreater
    exact hgreater

omit hrun in
theorem lookup_reads_table_twoWriters : ∃ s s', twoWriters = some s ∧
    (skipList ℕ ℕ).step s (.thread 0 (.run 1)) = some s' ∧
      (some 1).map s.shared.data = s.shared.table.lowerBound 5 := by
  have h : (twoWriters.bind fun s => ((skipList ℕ ℕ).step s (.thread 0 (.run 1))).map
      fun s' => (s.threads 0, s'.threads 0, s.shared.table.entries)) =
      some (.findNode ⟨5, 2, []⟩ 0 0, .found ⟨5, 2, []⟩ (some 1), [⟨5, 0, [7]⟩, ⟨8, 1, [9]⟩]) := rfl
  obtain ⟨s, hs, h⟩ := bind_eq_some_iff.mp h
  obtain ⟨s', hs', h⟩ := map_eq_some_iff.mp h
  simp only [Prod.mk.injEq] at h
  obtain ⟨hfind, hfound, htable⟩ := h
  exact ⟨s, s', hs, hs', lookup_reads_table hs hs' hfind hfound (by simp [htable])⟩

/-- **An iterator moves as one over the table** that it finds at the load. -/
theorem iterator_reads_table : (s.shared.skip 0 0).map s.shared.data = s.shared.table.begin ∧
    ∀ a ∈ s.shared.layer 0, (s.shared.skip 0 a).map s.shared.data =
      s.shared.table.next (s.shared.data a) := by
  obtain ⟨⟨h, -⟩, -⟩ := skipList_run hrun
  have hpath := h.path 0
  have htable := h.table
  have hhead : s.shared.skip 0 0 = (s.shared.layer 0).head? := hpath.1
  refine ⟨by rw [hhead, Skiplist.begin, ← htable, head?_map], fun a ha => ?_⟩
  obtain ⟨l₁, l₂, hl⟩ := append_of_mem ha
  rw [hl] at hpath htable
  change Path _ ((0 :: l₁) ++ a :: l₂) at hpath
  rw [hpath.next_eq, next_eq (l := l₂.map s.shared.data) ?_, head?_map]
  exact ⟨l₁.map s.shared.data, by rw [← htable, map_append, map_cons]⟩

omit hrun in
theorem iterator_reads_table_twoWriters :
    ∃ s, twoWriters = some s ∧ (s.shared.skip 0 0).map s.shared.data = s.shared.table.begin :=
  exists_twoWriters.imp fun _ hs => ⟨hs, (iterator_reads_table hs).1⟩

end Runs

end HedgeDB
