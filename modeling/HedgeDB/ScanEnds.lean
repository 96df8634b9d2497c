/-
HedgeDB/ScanEnds.lean

How a range scan ends, and what it does with values that cannot be read
(`src/db/range_iterator.cc`, `src/db/merge/merge_utils.h`).

When the heap is empty or an entry behind the bounds was met, `next` drains the
deduplicator, and `force_pop` throws if nothing waits there: that is the case if no
source had an entry.  A cursor ends when `_it` meets `_end`.  If the bounds are the
wrong way round it may start behind `_end` and run to the end of its list, where its
loops read through a null pointer; whether it gets there depends on how many entries
the scan takes before it stops, and these are all but `unread`.

`_emit` reports a value that cannot be parsed, but each of its callers takes every
error other than `END_OF_SCAN` for a skipped entry.
-/
import HedgeDB.RangeScan

namespace HedgeDB

open KeyedList KWayMerge List

variable {K : Type*} [LinearOrder K] {l : List (Record K)} {s : ScanSource K}

namespace ScanSource

/-- Only a cursor can be lost. -/
def Lost : ScanSource K → Prop
  | .stream _ => False
  | .cursor c => c.Lost

theorem HandsOut.lost_iff {mem : Tables K} {ends : Bool} (h : s.HandsOut mem ends l) :
    s.Lost ↔ ends = false ∧ l = [] := by
  cases s with
  | stream s => simp [Lost, h.1]
  | cursor c =>
    cases h with
    | eof h =>
      have hend : c.it = c.endIt := by simpa [MemtableCursor.isEof] using h
      exact iff_of_false (fun hlost => hlost.2 (hend ▸ hlost.1)) (by simp)
    | lost h => exact iff_of_true h ⟨rfl, rfl⟩
    | entry h hit hrest =>
      exact iff_of_false (fun hlost => Option.some_ne_none _ (hit.symm.trans hlost.1)) (by simp)

end ScanSource

theorem MemtableCursor.HandsOut.not_yields {t : Skiplist K} {c : MemtableCursor K}
    {l' : List (Record K)} (h : c.HandsOut t false l) : ¬ c.Yields t l' := by
  intro hy
  induction hy generalizing l with
  | @eof c heof =>
    have hend : c.it = c.endIt := by simpa [MemtableCursor.isEof] using heof
    cases h with
    | lost hlost => exact hlost.2 (hend ▸ hlost.1)
    | entry h hit hrest => exact Bool.noConfusion (heof.symm.trans h)
  | @entry c e l' hnot hit hrest ih =>
    cases h with
    | lost hlost => exact Option.some_ne_none _ (hit.symm.trans hlost.1)
    | entry h hit' hrest' => exact ih hrest'

theorem MemtableCursor.exists_handsOut (t : Skiplist K) (c : MemtableCursor K) :
    ∃ ends l, c.HandsOut t ends l := by
  induction hn : nodesLeft t c.it using Nat.strong_induction_on generalizing c with
  | _ n ih =>
    rcases heof : c.isEof
    · rcases hit : c.it with - | e
      · refine ⟨false, [], .lost ⟨hit, fun hend => ?_⟩⟩
        simp [MemtableCursor.isEof, hit, hend] at heof
      · obtain ⟨ends, l, hout⟩ := ih _ (hn ▸ hit ▸ nodesLeft_popFront hit) (c.popFront t) rfl
        exact ⟨ends, e.toRecord :: l, .entry heof hit hout⟩
    · exact ⟨true, [], .eof heof⟩

theorem ScanSource.HandsOut.not_yields {mem : Tables K} {l' : List (Record K)}
    (h : s.HandsOut mem false l) : ¬ s.Yields mem l' := by
  cases s with
  | stream s => exact absurd h.1 nofun
  | cursor c => exact MemtableCursor.HandsOut.not_yields h

namespace RangeIterator

/-! ### Which sources have handed out everything -/

variable {info : SourceInfo} {i : ℕ}

section Counting

variable {mem : Tables K} {infos : List SourceInfo} {it : RangeIterator K}
  {tails : ℕ → List (Record K)}

theorem epoch_injective (hinfos : infos.Pairwise fun a b => a.epoch ≠ b.epoch) {j : ℕ}
    {a b : SourceInfo} (hi : infos[i]? = some a) (hj : infos[j]? = some b)
    (heq : a.epoch = b.epoch) : i = j := by
  obtain ⟨hi', rfl⟩ := List.getElem?_eq_some_iff.mp hi
  obtain ⟨hj', rfl⟩ := List.getElem?_eq_some_iff.mp hj
  rw [pairwise_iff_getElem] at hinfos
  rcases Nat.lt_trichotomy i j with hlt | rfl | hlt
  · exact absurd heq (hinfos i j hi' hj' hlt)
  · rfl
  · exact absurd heq.symm (hinfos j i hj' hi' hlt)

omit [LinearOrder K] in
theorem filter_items_eq_nil {slots : List (HeapSlot K)} {epoch : ℕ}
    (h : ∀ a ∈ slots, a.entry.epoch ≠ epoch) :
    (slots.flatMap fun a => (slotCursor tails a).items).filter (·.2 = epoch) = [] := by
  rw [filter_eq_nil_iff]
  intro x hx
  obtain ⟨a, ha, hxa⟩ := mem_flatMap.mp hx
  obtain ⟨r, -, rfl⟩ := mem_map.mp hxa
  show ¬ decide (a.entry.epoch = epoch) = true
  rw [decide_eq_true_eq]
  exact h a ha

omit [LinearOrder K] in
theorem filter_items_eq_self (slot : HeapSlot K) :
    (slotCursor tails slot).items.filter (·.2 = slot.entry.epoch) =
      (slotCursor tails slot).items := by
  rw [filter_eq_self]
  intro x hx
  obtain ⟨r, -, rfl⟩ := mem_map.mp hx
  simp [slotCursor]

/-- A source has at most the entry in the heap left if at most one entry of its epoch is
left. -/
theorem tails_eq_nil_iff (hinfos : infos.Pairwise fun a b => a.epoch ≠ b.epoch)
    (h : Filled mem infos tails it) (htop : ∀ n, Topped tails n it)
    (hinfo : infos[i]? = some info) :
    tails i = [] ↔ ((merged tails it.heap).filter (·.epoch = info.epoch)).length ≤ 1 := by
  -- the entries of the epoch are those of the slot of this source
  have hslot : ∀ slot ∈ it.heap, slot.entry.epoch = info.epoch ↔ slot.source = i := by
    intro slot hslot
    obtain ⟨s, hs, hepoch⟩ := h.epochs slot hslot
    obtain ⟨info', hinfo', -, hepoch'⟩ := h.yields _ s hs
    rw [← hepoch, hepoch']
    refine ⟨epoch_injective hinfos hinfo' hinfo, ?_⟩
    rintro rfl
    exact congrArg SourceInfo.epoch (Option.some.inj (hinfo'.symm.trans hinfo))
  have hcount : ((merged tails it.heap).filter (·.epoch = info.epoch)).length =
      ((it.heap.flatMap fun a => (slotCursor tails a).items).filter (·.2 = info.epoch)).length := by
    rw [merged, filter_map, length_map, ← flatMap_map]
    exact ((mergeCursors_perm le_rfl).filter _).length_eq
  rw [hcount]
  by_cases hex : ∃ slot ∈ it.heap, slot.source = i
  · obtain ⟨slot, hmem, hsource⟩ := hex
    obtain ⟨before, behind, hheap⟩ := append_of_mem hmem
    have hself : slot.entry.epoch = info.epoch := (hslot slot hmem).mpr hsource
    have hdistinct := h.distinct
    rw [hheap] at hslot hdistinct ⊢
    obtain ⟨-, hbehind, hbefore⟩ := pairwise_append.mp hdistinct
    have hother : ∀ a ∈ before ++ slot :: behind, a.source ≠ slot.source →
        a.entry.epoch ≠ info.epoch :=
      fun a ha hne heq => hne (((hslot a ha).mp heq).trans hsource.symm)
    rw [flatMap_append, flatMap_cons, filter_append, filter_append,
      filter_items_eq_nil fun a ha => hother a (mem_append_left _ ha)
        (hbefore a ha slot mem_cons_self),
      filter_items_eq_nil fun a ha => hother a (mem_append_right _ (mem_cons_of_mem _ ha))
        ((pairwise_cons.mp hbehind).1 a ha).symm, ← hself, filter_items_eq_self, ← hsource]
    simp [Cursor.items, slotCursor]
  · have htail : tails i = [] := by
      by_contra hne
      exact hex (htop (i + 1) i i.lt_succ_self hne)
    rw [filter_items_eq_nil fun a ha heq => hex ⟨a, ha, (hslot a ha).mp heq⟩]
    exact iff_of_true htail (Nat.zero_le 1)

end Counting

/-! ### The calls of a scan -/

section Calls

variable {mem : Tables K} {infos : List SourceInfo} {it : RangeIterator K}
  {lower upper : Option K} {left : List (MergeEntry K)}

/-- The sources of a scan with the entries `entries` still in the heap or behind it. -/
def Holding (mem : Tables K) (infos : List SourceInfo) (entries : List (MergeEntry K))
    (it : RangeIterator K) : Prop :=
  ∃ tails it', it'.sources = it.sources ∧ Filled mem infos tails it' ∧
    (∀ n, Topped tails n it') ∧ merged tails it'.heap = entries

/-- A scan that goes on, with `n` entries upcoming, and that will leave `left`. -/
def Going (mem : Tables K) (infos : List SourceInfo) (lower upper : Option K)
    (left : List (MergeEntry K)) (n : ℕ) (it : RangeIterator K) : Prop :=
  ∃ tails, Scanning mem infos tails lower upper it ∧ upcoming tails it ≠ [] ∧
    (upcoming tails it).length = n ∧ unread lower upper (pending tails it) = left

theorem unread_suffix (lower upper : Option K) (entries : List (MergeEntry K)) :
    unread lower upper entries <:+ entries.tail := by
  induction entries with
  | nil => exact suffix_rfl
  | cons a entries ih =>
    rcases ha : endsScan lower upper a
    · rw [unread_of_not_endsScan ha]
      exact ih.trans (tail_suffix entries)
    · simp only [unread, ha, dropWhile_cons, Bool.not_true, Bool.false_eq_true, if_false]
      exact (tail_suffix _).trans (dropWhile_suffix _)

variable {n : ℕ}

theorem Going.holding (h : Going mem infos lower upper left n it) :
    ∃ more, Holding mem infos (more ++ left) it := by
  obtain ⟨tails, hscan, -, -, rfl⟩ := h
  have hsuffix : unread lower upper (pending tails it) <:+ merged tails it.heap := by
    refine (unread_suffix lower upper _).trans ?_
    rw [pending]
    rcases it.dedup.toBeCheckedItem with - | c
    · exact tail_suffix _
    · exact suffix_rfl
  obtain ⟨more, hmore⟩ := hsuffix
  exact ⟨more, tails, it, rfl, hscan.filled, hscan.topped, hmore.symm⟩

/-- **A call of a scan that goes on** returns a pair and goes on with fewer entries
upcoming, or is the last that may return one. -/
theorem Going.next (h : Going mem infos lower upper left n it) :
    (∃ kv it' m, it.next mem = (.ok kv, it') ∧ m < n ∧ Going mem infos lower upper left m it') ∨
      ∃ r it', it.next mem = (r, it') ∧ ((∃ kv, r = .ok kv) ∨ r = .error endOfScanError) ∧
        Over it' ∧ Holding mem infos left it' := by
  obtain ⟨tails, hscan, hne, rfl, rfl⟩ := h
  obtain ⟨skipped, tails', it', -, ⟨c, kv, hup, -, hinner, hscan', hne', hleft⟩ |
    ⟨e, c, hinner, he, hwait, hF, hT, hleft, -⟩⟩ := nextInner_cases hscan hne hscan.filled.size_lt_bound
  · refine .inl ⟨kv, it', _, next_eq_of_ok hscan hinner, ?_, tails', hscan', hne', rfl, hleft⟩
    rw [hup, length_append, length_cons]
    omega
  · obtain ⟨it'', hover, hsources, hdrain⟩ := drain_eq hwait
    refine .inr ⟨_, it'', (next_eq_of_end hscan hinner he).trans hdrain, ?_, hover,
      tails', it', hsources.symm, hF, hT, hleft⟩
    rcases emitted lower upper c with - | kv
    · exact .inr rfl
    · exact .inl ⟨kv, rfl⟩

theorem Over.afterCalls_eq (h : Over it) (n : ℕ) : it.afterCalls mem n = it := by
  have hnext : it.next mem = (.error endOfScanError, it) := by
    simp [RangeIterator.next, h.1, h.2]
  induction n with
  | zero => rfl
  | succ n ih => rw [afterCalls, hnext, ih]

theorem Going.calls (h : Going mem infos lower upper left n it) :
    (∃ N, (∀ m < N, ∃ kv, it.call mem m = .ok kv) ∧
        ∀ m, N ≤ m → it.call mem m = .error endOfScanError) ∧
      (∀ m, ∃ more, Holding mem infos (more ++ left) (it.afterCalls mem m)) ∧
      ∃ m, 0 < m ∧ Holding mem infos left (it.afterCalls mem m) := by
  induction n using Nat.strong_induction_on generalizing it with
  | _ n ih =>
    have hhere := h.holding
    rcases h.next with ⟨kv, it', m, hnext, hlt, hgoing⟩ | ⟨r, it', hnext, hr, hover, hholding⟩
    · obtain ⟨⟨N, hok, hend⟩, hall, m', hm', hlast⟩ := ih m hlt hgoing
      have hafter : ∀ k, it.afterCalls mem (k + 1) = it'.afterCalls mem k := by
        intro k
        rw [afterCalls, hnext]
      have hcall : ∀ k, it.call mem (k + 1) = it'.call mem k := by
        intro k
        rw [call_succ, hnext]
      refine ⟨⟨N + 1, ?_, ?_⟩, ?_, m' + 1, Nat.succ_pos _, (hafter m').symm ▸ hlast⟩
      · rintro (- | k) hk
        · exact ⟨kv, congrArg Prod.fst hnext⟩
        · rw [hcall]
          exact hok k (Nat.lt_of_succ_lt_succ hk)
      · rintro (- | k) hk
        · exact absurd hk (Nat.not_succ_le_zero N)
        · rw [hcall]
          exact hend k (Nat.le_of_succ_le_succ hk)
      · rintro (- | k)
        · exact hhere
        · rw [hafter]
          exact hall k
    · -- the last call that may return a pair
      have hafter : ∀ k, it.afterCalls mem (k + 1) = it' := by
        intro k
        rw [afterCalls, hnext, hover.afterCalls_eq]
      have hcall : ∀ k, it.call mem (k + 1) = .error endOfScanError := by
        intro k
        rw [call_succ, hnext, hover.call_eq]
      refine ⟨?_, ?_, 1, Nat.one_pos, (hafter 0).symm ▸ hholding⟩
      · rcases hr with ⟨kv, rfl⟩ | rfl
        · refine ⟨1, fun k hk => ?_, fun k hk => ?_⟩
          · obtain rfl : k = 0 := Nat.lt_one_iff.mp hk
            exact ⟨kv, congrArg Prod.fst hnext⟩
          · obtain ⟨k, rfl⟩ : ∃ j, k = j + 1 := ⟨k - 1, by omega⟩
            exact hcall k
        · refine ⟨0, fun k hk => absurd hk (Nat.not_lt_zero k), ?_⟩
          rintro (- | k) -
          · exact congrArg Prod.fst hnext
          · exact hcall k
      · rintro (- | k)
        · exact hhere
        · rw [hafter]
          exact ⟨[], hholding⟩

end Calls

/-! ### A scan ends cleanly -/

/-- No cursor leaves its list, and behind finitely many pairs all calls return
`END_OF_SCAN`. -/
structure EndsCleanly (mem : Tables K) (it : RangeIterator K) : Prop where
  inside : ∀ n, ∀ s ∈ (it.afterCalls mem n).sources, ¬ s.Lost
  ends : ∃ N, (∀ n < N, ∃ kv, it.call mem n = .ok kv) ∧
    ∀ n, N ≤ n → it.call mem n = .error endOfScanError

section Ends

variable {mem : Tables K} {infos : List SourceInfo} {it : RangeIterator K}
  {lower upper : Option K} {srcs : List (ScanSource K × List (Record K))}

theorem Holding.length {entries : List (MergeEntry K)} (h : Holding mem infos entries it) :
    it.sources.length = infos.length := by
  obtain ⟨tails, it', hsources, hF, -⟩ := h
  rw [← hsources, hF.length]

theorem Holding.lost_iff {entries : List (MergeEntry K)}
    (hinfos : infos.Pairwise fun a b => a.epoch ≠ b.epoch) (h : Holding mem infos entries it)
    (hinfo : infos[i]? = some info) (hs : it.sources[i]? = some s) :
    s.Lost ↔ info.ends = false ∧ (entries.filter (·.epoch = info.epoch)).length ≤ 1 := by
  obtain ⟨tails, it', hsources, hF, hT, rfl⟩ := h
  rw [← hsources] at hs
  obtain ⟨info', hinfo', hout, -⟩ := hF.yields i s hs
  obtain rfl : info' = info := Option.some.inj (hinfo'.symm.trans hinfo)
  rw [hout.lost_iff, tails_eq_nil_iff hinfos hF hT hinfo]

theorem call_of_empty (hsrcs : Described mem infos srcs) (hnil : ∀ p ∈ srcs, p.2 = []) (n : ℕ) :
    (fresh srcs lower upper).call mem n = .error { msg := "No buffered item to force_pop" } := by
  obtain ⟨tails, hscan, hcursors, hdedup⟩ := init_scanning hsrcs lower upper
  have hnone : (srcs.map asSst).filterMap Sst.cursor = [] := by
    rw [filterMap_eq_nil_iff]
    intro s hs
    obtain ⟨p, hp, rfl⟩ := mem_map.mp hs
    simp [Sst.cursor, asSst, hnil p hp]
  have hheap : ((fresh srcs lower upper).init mem).heap = [] := by
    rw [hnone] at hcursors
    exact map_eq_nil_iff.mp hcursors
  rw [call_fresh]
  generalize (fresh srcs lower upper).init mem = it at hscan hdedup hheap
  have hinner : it.nextInner mem (it.bound mem) = (.error { msg := "eof", code := .endOfScan }, it) := by
    rw [bound, nextInner, popHeap_eq_none.mpr hheap]
  have hforce : it.dedup.forcePop = .error { msg := "No buffered item to force_pop" } := by
    rw [hdedup]
    rfl
  have hpop : it.dedup.pop = .error { msg := "No ready item to pop" } := by
    rw [hdedup]
    rfl
  have hnext : it.next mem = (.error { msg := "No buffered item to force_pop" }, it) := by
    rw [next_eq_of_end hscan hinner rfl, drain, hpop]
    dsimp only
    rw [last, hforce]
  induction n with
  | zero => exact congrArg Prod.fst hnext
  | succ n ih =>
    rw [call_succ, hnext]
    exact ih

theorem going_init (hsrcs : Described mem infos srcs) (hne : ∃ p ∈ srcs, p.2 ≠ []) :
    ∃ n, Going mem infos lower upper (unread lower upper (mergedEntries srcs)) n
      ((fresh srcs lower upper).init mem) := by
  obtain ⟨tails, hscan, hdedup, hmerged⟩ := pending_init hsrcs lower upper
  have hpending : pending tails ((fresh srcs lower upper).init mem) = mergedEntries srcs := by
    rw [pending, hdedup, hmerged]
    rfl
  have hup : upcoming tails ((fresh srcs lower upper).init mem) = newest srcs := by
    show firsts MergeEntry.key none (pending tails _) = _
    rw [hpending]
    exact firsts_map _ _ _
  refine ⟨_, tails, hscan, ?_, rfl, by rw [hpending]⟩
  rw [hup]
  intro hnil
  obtain ⟨p, hp, hp'⟩ := hne
  exact hp' (newest_eq_nil_iff.mp hnil p hp)

theorem afterCalls_fresh (n : ℕ) :
    (fresh srcs lower upper).afterCalls mem (n + 1) =
      ((fresh srcs lower upper).init mem).afterCalls mem (n + 1) := by
  have hnext : (fresh srcs lower upper).next mem = ((fresh srcs lower upper).init mem).next mem := by
    simp [next, fresh, init]
  rw [afterCalls, afterCalls, hnext]

theorem ne_nil_of_unread (hsrcs : Described mem infos srcs)
    (hinfos : infos.Pairwise fun a b => a.epoch ≠ b.epoch) {p : ScanSource K × List (Record K)}
    (hinfo : infos[i]? = some info) (hp : srcs[i]? = some p)
    (h : 2 ≤ ((unread lower upper (mergedEntries srcs)).filter (·.epoch = info.epoch)).length) :
    p.2 ≠ [] := by
  obtain ⟨item, hitem⟩ := exists_mem_of_length_pos (Nat.lt_of_lt_of_le Nat.two_pos h)
  obtain ⟨hmem, hepoch⟩ := mem_filter.mp hitem
  have hall := (tail_suffix _).subset ((unread_suffix lower upper _).subset hmem)
  obtain ⟨⟨r, epoch⟩, hr, rfl⟩ := mem_map.mp hall
  obtain ⟨s, hs, hrs, hse⟩ := mem_mergedSequence.mp hr
  obtain ⟨q, hq, rfl⟩ := mem_map.mp hs
  obtain ⟨j, hj⟩ := mem_iff_getElem?.mp hq
  obtain ⟨info', hinfo', -, hepoch'⟩ := hsrcs.2 j q hj
  -- the epoch tells the source
  obtain rfl : j = i :=
    epoch_injective hinfos hinfo' hinfo (hepoch'.symm.trans (hse.trans (of_decide_eq_true hepoch)))
  obtain rfl : q = p := Option.some.inj (hj.symm.trans hp)
  exact ne_nil_of_mem hrs

theorem EndsCleanly.nonempty (hsrcs : Described mem infos srcs)
    (h : EndsCleanly mem (fresh srcs lower upper)) : ∃ p ∈ srcs, p.2 ≠ [] := by
  by_contra hnone
  have hnil : ∀ p ∈ srcs, p.2 = [] := fun p hp => by_contra fun hp' => hnone ⟨p, hp, hp'⟩
  have hthrow : (fresh srcs lower upper).call mem 0 = _ := call_of_empty hsrcs hnil 0
  obtain ⟨N, hok, hend⟩ := h.ends
  rcases Nat.eq_zero_or_pos N with rfl | hpos
  · exact absurd (hthrow.symm.trans (hend 0 le_rfl)) (by simp [endOfScanError])
  · obtain ⟨kv, hkv⟩ := hok 0 hpos
    exact absurd (hthrow.symm.trans hkv) nofun

theorem endsCleanly_iff (hsrcs : Described mem infos srcs)
    (hinfos : infos.Pairwise fun a b => a.epoch ≠ b.epoch) :
    EndsCleanly mem (fresh srcs lower upper) ↔
      (∃ p ∈ srcs, p.2 ≠ []) ∧ ∀ info ∈ infos, info.ends = true ∨
        2 ≤ ((unread lower upper (mergedEntries srcs)).filter (·.epoch = info.epoch)).length := by
  constructor
  · intro h
    have hne := h.nonempty hsrcs
    refine ⟨hne, fun info hmem => ?_⟩
    obtain ⟨n, hgoing⟩ := going_init hsrcs hne
    obtain ⟨-, -, m, hm, hlast⟩ := hgoing.calls
    obtain ⟨m, rfl⟩ : ∃ k, m = k + 1 := ⟨m - 1, by omega⟩
    rw [← afterCalls_fresh] at hlast
    obtain ⟨i, hi⟩ := mem_iff_getElem?.mp hmem
    have hlen : i < ((fresh srcs lower upper).afterCalls mem (m + 1)).sources.length := by
      rw [hlast.length]
      exact (List.getElem?_eq_some_iff.mp hi).1
    have hlost := hlast.lost_iff hinfos hi (List.getElem?_eq_getElem hlen)
    -- where the scan has stopped, the cursor would be lost
    by_contra hbad
    obtain ⟨hfalse, hfew⟩ := not_or.mp hbad
    exact h.inside _ _ (getElem_mem hlen)
      (hlost.mpr ⟨Bool.eq_false_iff.mpr hfalse, Nat.lt_succ_iff.mp (Nat.lt_of_not_le hfew)⟩)
  · rintro ⟨hne, hrest⟩
    obtain ⟨n, hgoing⟩ := going_init hsrcs hne
    obtain ⟨hends, hall, -⟩ := hgoing.calls
    refine ⟨?_, ?_⟩
    · rintro (- | m) s hs hlost
      · -- before the first call
        obtain ⟨p, hp, rfl⟩ := mem_map.mp hs
        obtain ⟨i, hi⟩ := mem_iff_getElem?.mp hp
        obtain ⟨info, hinfo, hout, -⟩ := hsrcs.2 i p hi
        obtain ⟨hfalse, hnil⟩ := hout.lost_iff.mp hlost
        rcases hrest info (mem_of_getElem? hinfo) with htrue | hmany
        · exact absurd (hfalse.symm.trans htrue) nofun
        · exact ne_nil_of_unread hsrcs hinfos hinfo hi hmany hnil
      · obtain ⟨more, hholding⟩ := hall (m + 1)
        rw [← afterCalls_fresh] at hholding
        obtain ⟨i, hi⟩ := mem_iff_getElem?.mp hs
        have hlen : i < infos.length := by
          rw [← hholding.length]
          exact (List.getElem?_eq_some_iff.mp hi).1
        obtain ⟨hfalse, hfew⟩ :=
          (hholding.lost_iff hinfos (List.getElem?_eq_getElem hlen) hi).mp hlost
        rcases hrest _ (getElem_mem hlen) with htrue | hmany
        · exact absurd (hfalse.symm.trans htrue) nofun
        · rw [filter_append, length_append] at hfew
          omega
    · simpa only [call_fresh] using hends

theorem exists_ends (hsrcs : ∀ p ∈ srcs, ∃ ends, p.1.HandsOut mem ends p.2) :
    ∃ ends : ScanSource K × List (Record K) → Bool,
      ∀ p ∈ srcs, p.1.HandsOut mem (ends p) p.2 ∧ (ends p = true ↔ p.1.Yields mem p.2) := by
  classical
  refine ⟨fun p => decide (p.1.Yields mem p.2), fun p hp => ⟨?_, decide_eq_true_iff⟩⟩
  show p.1.HandsOut mem (decide (p.1.Yields mem p.2)) p.2
  obtain ⟨b, hb⟩ := hsrcs p hp
  rcases b with - | -
  · rwa [decide_eq_false hb.not_yields]
  · rwa [decide_eq_true (ScanSource.handsOut_true_iff.mp hb)]

/-- **How a scan ends, exactly.**  No call throws or leaves a list, and behind finitely many
pairs all calls return `END_OF_SCAN`, if and only if some source has an entry and every
cursor ends or has two entries left where the scan stops. -/
theorem scan_ends_iff (mem : Tables K) (srcs : List (ScanSource K × List (Record K)))
    (lower upper : Option K) (hsrcs : ∀ p ∈ srcs, ∃ ends, p.1.HandsOut mem ends p.2)
    (hepochs : srcs.Pairwise fun p q => p.1.epoch ≠ q.1.epoch) :
    EndsCleanly mem (fresh srcs lower upper) ↔
      (∃ p ∈ srcs, p.2 ≠ []) ∧ ∀ p ∈ srcs, p.1.Yields mem p.2 ∨
        2 ≤ ((unread lower upper (mergedEntries srcs)).filter (·.epoch = p.1.epoch)).length := by
  obtain ⟨ends, hends⟩ := exists_ends hsrcs
  rw [endsCleanly_iff (described_map fun p hp => (hends p hp).1) (pairwise_map.mpr hepochs)]
  refine and_congr_right fun _ => ?_
  rw [forall_mem_map]
  exact forall₂_congr fun p hp => or_congr (hends p hp).2 Iff.rfl

theorem call_cases (hsrcs : ∀ p ∈ srcs, ∃ ends, p.1.HandsOut mem ends p.2)
    (hne : ∃ p ∈ srcs, p.2 ≠ []) (n : ℕ) :
    (∃ kv, (fresh srcs lower upper).call mem n = .ok kv) ∨
      (fresh srcs lower upper).call mem n = .error endOfScanError := by
  obtain ⟨ends, hends⟩ := exists_ends hsrcs
  obtain ⟨m, hgoing⟩ := going_init (described_map fun p hp => (hends p hp).1) hne
  obtain ⟨⟨N, hok, hend⟩, -⟩ := hgoing.calls
  rw [call_fresh]
  rcases Nat.lt_or_ge n N with hlt | hge
  · exact .inl (hok n hlt)
  · exact .inr (hend n hge)

end Ends

/-! ### Values that cannot be read -/

/-- The entry that a scan takes for its key: that of the source of highest epoch. -/
structure Wins (srcs : List (ScanSource K × List (Record K))) (lower upper : Option K)
    (r : Record K) : Prop where
  lower : ∀ b ∈ lower, b ≤ r.key
  upper : ∀ b ∈ upper, r.key ≤ b
  newest : ∃ p ∈ srcs, r ∈ p.2 ∧
    ∀ q ∈ srcs, ∀ r' ∈ q.2, r'.key = r.key → q.1.epoch ≤ p.1.epoch

/-- A call returns an error other than `END_OF_SCAN`, and no call before it a pair at or
behind the key. -/
def ReportsBefore (mem : Tables K) (it : RangeIterator K) (key : K) : Prop :=
  ∃ n e, it.call mem n = .error e ∧ e.code ≠ .endOfScan ∧
    ∀ m < n, ∀ kv, it.call mem m = .ok kv → kv.1 < key

section Undecodable

variable {mem : Tables K} {lower upper : Option K} {srcs : List (ScanSource K × List (Record K))}

theorem not_reportsBefore (hsrcs : ∀ p ∈ srcs, ∃ ends, p.1.HandsOut mem ends p.2)
    (hne : ∃ p ∈ srcs, p.2 ≠ []) (key : K) :
    ¬ ReportsBefore mem (fresh srcs lower upper) key := by
  rintro ⟨n, e, hcall, hcode, -⟩
  rcases call_cases hsrcs hne n with ⟨kv, hkv⟩ | hend
  · exact absurd (hcall.symm.trans hkv) nofun
  · exact hcode (congrArg Error.code (Except.error.inj (hcall.symm.trans hend)))

/-- **What is reported of unreadable values, exactly.**  Every winning entry that cannot be
read is reported if and only if there is none: the scan skips them all. -/
theorem undecodable_reported_iff (mem : Tables K) (srcs : List (ScanSource K × List (Record K)))
    (lower upper : Option K) (hsrcs : ∀ p ∈ srcs, ∃ ends, p.1.HandsOut mem ends p.2) :
    (∀ r, Wins srcs lower upper r → ¬ Decodable r.value →
        ReportsBefore mem (fresh srcs lower upper) r.key) ↔
      ∀ r, Wins srcs lower upper r → Decodable r.value := by
  constructor
  · intro h r hwins
    by_contra hbad
    obtain ⟨p, hp, hr, -⟩ := hwins.newest
    exact not_reportsBefore hsrcs ⟨p, hp, ne_nil_of_mem hr⟩ r.key (h r hwins hbad)
  · exact fun h r hwins hbad => absurd (h r hwins) hbad

end Undecodable

/-! The scan of `RangeScan` ends cleanly and has no unreadable value.  A scan of an empty
table throws; with bounds the wrong way round a cursor over three keys starts on the
third and leaves the list. -/

theorem scannedSources_handsOut :
    ∀ p ∈ scannedSources, ∃ ends, p.1.HandsOut (fun _ => scannedTable) ends p.2 := by
  intro p hp
  rcases mem_cons.mp hp with rfl | hp'
  · exact ⟨true, rfl, by unfold SstStream.NoEmptyChunk; decide, rfl⟩
  · obtain rfl := mem_singleton.mp hp'
    exact ⟨true, .entry rfl rfl (.entry rfl rfl (.eof rfl))⟩

theorem scannedSources_end_cleanly :
    EndsCleanly (fun _ => scannedTable) (fresh scannedSources (some 1) (some 3)) := by
  refine (scan_ends_iff _ scannedSources (some 1) (some 3) scannedSources_handsOut
    (by decide)).mpr ⟨⟨_, mem_cons_self, cons_ne_nil _ _⟩, fun p hp => .inl ?_⟩
  rcases mem_cons.mp hp with rfl | hp'
  · exact ⟨by unfold SstStream.NoEmptyChunk; decide, rfl⟩
  · obtain rfl := mem_singleton.mp hp'
    exact .entry rfl rfl (.entry rfl rfl (.eof rfl))

def threeKeyTable : Skiplist ℕ :=
  ((Skiplist.empty.insert ⟨1, 0, encodeValue .inPlaceValue [1]⟩).insert
    ⟨2, 1, encodeValue .inPlaceValue [2]⟩).insert ⟨3, 2, encodeValue .inPlaceValue [3]⟩

/-- The cursor of a scan of one table. -/
def tableSources (t : Skiplist ℕ) (lower upper : Option ℕ) :
    List (ScanSource ℕ × List (Record ℕ)) :=
  [(.cursor (.make t 0 lower upper uint64Max uint64Max), [])]

theorem scan_of_nothing_throws :
    (fresh (tableSources .empty (some 1) (some 3)) (some 1) (some 3)).call (fun _ => .empty) 0 =
        .error { msg := "No buffered item to force_pop" } ∧
      ¬ EndsCleanly (fun _ => threeKeyTable)
        (fresh (tableSources threeKeyTable (some 3) (some 1)) (some 3) (some 1)) := by
  refine ⟨rfl, fun h => ?_⟩
  refine h.inside 1 (.cursor ⟨0, none, some ⟨2, 1, encodeValue .inPlaceValue [2]⟩, uint64Max,
    uint64Max⟩) ?_ ⟨rfl, nofun⟩
  have hsources : ((fresh (tableSources threeKeyTable (some 3) (some 1)) (some 3) (some 1)).afterCalls
      (fun _ => threeKeyTable) 1).sources = [.cursor ⟨0, none,
        some ⟨2, 1, encodeValue .inPlaceValue [2]⟩, uint64Max, uint64Max⟩] := rfl
  rw [hsources]
  exact mem_cons_self

theorem scannedSources_readable :
    (∀ p ∈ scannedSources, ∃ ends, p.1.HandsOut (fun _ => scannedTable) ends p.2) ∧
      ∀ r, Wins scannedSources (some 1) (some 3) r → ¬ Decodable r.value →
        ReportsBefore (fun _ => scannedTable) (fresh scannedSources (some 1) (some 3)) r.key := by
  refine ⟨scannedSources_handsOut, (undecodable_reported_iff _ scannedSources (some 1) (some 3)
    scannedSources_handsOut).mpr fun r hwins => ?_⟩
  obtain ⟨p, hp, hr, -⟩ := hwins.newest
  exact (by decide : ∀ p ∈ scannedSources, ∀ r ∈ p.2, Decodable r.value) p hp r hr

/-- An SST with a readable value and two that are not. -/
def unreadableSources : List (ScanSource ℕ × List (Record ℕ)) :=
  let sst : Sst ℕ :=
    { id := 0, indexId := 0, epoch := 4, upperBound := 0, maxSeqNr := 3
      entries := [⟨1, 0, encodeValue .inPlaceValue [10]⟩, ⟨2, 1, [7]⟩, ⟨3, 2, [7]⟩] }
  [(.stream { index := sst, reader := [⟨sst.entries, 0⟩] }, sst.entries)]

theorem unreadable_values_skipped :
    (fresh unreadableSources none (some 3)).call (fun _ => .empty) 0 = .ok (1, [10]) ∧
      (∀ key ∈ [2, 3], ∃ r : Record ℕ, r.key = key ∧ Wins unreadableSources none (some 3) r ∧
        ¬ Decodable r.value ∧
        ¬ ReportsBefore (fun _ => .empty) (fresh unreadableSources none (some 3)) key) := by
  have hout : ∀ p ∈ unreadableSources, ∃ ends, p.1.HandsOut (fun _ => Skiplist.empty) ends p.2 := by
    intro p hp
    obtain rfl := mem_singleton.mp hp
    exact ⟨true, rfl, by unfold SstStream.NoEmptyChunk; decide, rfl⟩
  have hne : ∃ p ∈ unreadableSources, p.2 ≠ [] := ⟨_, mem_cons_self, cons_ne_nil _ _⟩
  have hwins : ∀ p ∈ unreadableSources, ∀ q ∈ unreadableSources, q.1.epoch ≤ p.1.epoch := by decide
  refine ⟨rfl, fun key hkey => ?_⟩
  have hread : ¬ ReportsBefore (fun _ => .empty) (fresh unreadableSources none (some 3)) key :=
    not_reportsBefore hout hne key
  rcases mem_cons.mp hkey with rfl | hkey'
  · refine ⟨⟨2, 1, [7]⟩, rfl, ⟨nofun, by decide, ?_⟩, by decide, hread⟩
    exact ⟨_, mem_cons_self, by decide, fun q hq r' hr' _ => hwins _ mem_cons_self q hq⟩
  · obtain rfl := mem_singleton.mp hkey'
    refine ⟨⟨3, 2, [7]⟩, rfl, ⟨nofun, by decide, ?_⟩, by decide, hread⟩
    exact ⟨_, mem_cons_self, by decide, fun q hq r' hr' _ => hwins _ mem_cons_self q hq⟩

end RangeIterator

end HedgeDB
