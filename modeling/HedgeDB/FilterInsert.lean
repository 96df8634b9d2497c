/-
HedgeDB/FilterInsert.lean

Inserting into the quotient filter and looking a hash up (`qf_insert`, `qf_may_contain`,
`src/db/qf.cc`).

`Represents` says that the bits of the table are those of a layout of runs.  Finding a run
(`findRunIndex_spec`), looking through it (`scanRun_spec`) and moving the slots behind a
place by one (`insertInto_spec`) are one lemma each, and `qf_insert` is put together from
them in three cases: the home is empty, it has elements, or it has none but is filled by a
run that started earlier.

`insert_spec` needs two empty slots, and with one left `mayContain_spec` still ends: the
loops that look for a slot would not stop in a full table.
-/
import HedgeDB.QuotientFilter

namespace HedgeDB

open CircularRuns Option

namespace QuotientFilter

variable {q r : ℕ} {qf : QuotientFilter} {d : ℤ → Option ℕ} {flagged : ℤ → Prop}

theorem exists_first {P : ℕ → Prop} [DecidablePred P] {m : ℕ} (hm : P m) :
    ∃ k ≤ m, P k ∧ ∀ i < k, ¬ P i :=
  ⟨Nat.find ⟨m, hm⟩, Nat.find_min' _ hm, Nat.find_spec ⟨m, hm⟩, fun _ hi => Nat.find_min _ hi⟩

/-! ### Finding a run -/

variable {s : ℤ}

theorem emod_ne_of_lt {n p : ℤ} (hlt : s < p) (hp : p < s + n) : p % n ≠ s % n := by
  intro hmod
  have hdvd := Int.ModEq.dvd (show s ≡ p [ZMOD n] from hmod.symm)
  have := Int.le_of_dvd (by omega) hdvd
  omega

variable {x : ℤ}

theorem emod_eq_iff {n y : ℤ} : y % n = x % n ↔ ∃ m : ℤ, y = x + m * n := by
  rw [Int.emod_eq_emod_iff_emod_sub_eq_zero, ← Int.dvd_iff_emod_eq_zero]
  constructor
  · rintro ⟨m, hm⟩
    exact ⟨m, by rw [Int.mul_comm]; omega⟩
  · rintro ⟨m, rfl⟩
    exact ⟨m, by rw [Int.mul_comm]; omega⟩

variable {fuel k : ℕ}

namespace Shape

variable {e : ℤ}

section Find

variable (h : qf.Shape q r) (hl : Layout (2 ^ q) (qf.slots q) d flagged)

include h hl

theorem findRunFrom_spec (he : d e = none) (hflag : ∀ y, flagged y → y % 2 ^ q = x % 2 ^ q)
    (hocc : (qf.slots q x).occupied = true) {rounds : ℕ} (hfuel : 2 ^ q ≤ fuel) {b : ℤ}
    (hs : RunStart d b s) (hbx : b ≤ x) (hnear : x < b + 2 ^ q) (hrounds : x < b + rounds)
    (hfull : ∀ y, b ≤ y → y ≤ x → ∃ j, d y = some j) (hrun : b = x ∨ HasRun d b) :
    ∃ s', qf.findRunFrom fuel (slotIndex q x) rounds (slotIndex q b) (slotIndex q s) =
      some (slotIndex q s') ∧ RunStart d x s' := by
  have hpow : (0 : ℤ) < 2 ^ q := by positivity
  have hfuel' : (2 : ℤ) ^ q ≤ fuel := by exact_mod_cast hfuel
  induction rounds generalizing b s with
  | zero => exact absurd hbx (by push_cast at hrounds; omega)
  | succ rounds ih =>
    rw [findRunFrom]
    rcases eq_or_lt_of_le hbx with rfl | hlt
    · exact ⟨s, by simp, hs⟩
    · have hne : slotIndex q b ≠ slotIndex q x := by
        rw [Ne, slotIndex_eq_iff h.qbits_lt]
        exact (emod_ne_of_lt hlt hnear).symm
      obtain ⟨k, hk, hhome⟩ := hl.head_of_start hs (hrun.resolve_left hlt.ne)
      -- an empty slot is not a continuation
      obtain ⟨m, hm, hcont, hend⟩ : ∃ m : ℕ, (m : ℤ) < 2 ^ q ∧
          (∀ i : ℕ, i < m → (qf.slots q (s + 1 + i)).continuation = true) ∧
          (qf.slots q (s + 1 + m)).continuation = false := by
        obtain ⟨p, hp, hp', hnone⟩ := hl.exists_hole hpow he (s + 1)
        obtain ⟨i, rfl⟩ : ∃ i : ℕ, p = s + 1 + i := ⟨(p - s - 1).toNat, by omega⟩
        obtain ⟨m, hmi, hm, hmin⟩ := exists_first
          (P := fun i : ℕ => (qf.slots q (s + 1 + i)).continuation = false)
          (hl.continuation_of_none hnone)
        refine ⟨m, by omega, fun i hi => ?_, hm⟩
        exact Bool.eq_true_of_not_eq_false (hmin i hi)
      obtain ⟨m', hm', hfree, hnext⟩ : ∃ m' : ℕ, b + 1 + m' ≤ x ∧
          (∀ i : ℕ, i < m' → (qf.slots q (b + 1 + i)).occupied = false) ∧
          (qf.slots q (b + 1 + m')).occupied = true := by
        obtain ⟨i, rfl⟩ : ∃ i : ℕ, x = b + 1 + i := ⟨(x - b - 1).toNat, by omega⟩
        obtain ⟨m', hmi, hm, hmin⟩ := exists_first
          (P := fun i : ℕ => (qf.slots q (b + 1 + i)).occupied = true) hocc
        refine ⟨m', by omega, fun i hi => ?_, hm⟩
        exact Bool.eq_false_of_not_eq_true (hmin i hi)
      have hskip : qf.skipRun fuel (slotIndex q s) = some (slotIndex q (s + 1 + m)) :=
        h.advanceWhile_eq (by omega) hcont hend
      have hoccupied : qf.nextOccupied fuel (slotIndex q b) = some (slotIndex q (b + 1 + m')) := by
        refine h.advanceWhile_eq (by omega) (fun i hi => ?_) ?_
        · rw [Bool.not_eq_true']
          exact hfree i hi
        · rw [Bool.not_eq_false']
          exact hnext
      rw [if_pos hne, hskip]
      show ∃ s', (qf.nextOccupied fuel (slotIndex q b)).bind _ = _ ∧ _
      rw [hoccupied]
      refine ih ?_ hm' (by omega) (by push_cast at hrounds; omega)
        (fun y hy hyx => hfull y (by omega) hyx) ?_
      · refine hl.runStart_next hs hk hhome (by omega) (by omega) (fun p hp hp' => ?_) hend
          (fun y hy hy' hrun' => ?_) (fun y hy hy' => hfull y hy (by omega))
        · obtain ⟨i, rfl⟩ : ∃ i : ℕ, p = s + 1 + i := ⟨(p - s - 1).toNat, by omega⟩
          exact hcont i (by omega)
        · obtain ⟨i, rfl⟩ : ∃ i : ℕ, y = b + 1 + i := ⟨(y - b - 1).toNat, by omega⟩
          have := (hl.occupied _).mpr (.inl hrun')
          rw [hfree i (by omega)] at this
          cases this
      · rcases (hl.occupied _).mp hnext with hrun' | hf
        · exact .inr hrun'
        · rcases eq_or_lt_of_le hm' with heq | hlt'
          · exact .inl heq
          · exact absurd (hflag _ hf) (emod_ne_of_lt hlt' (by omega)).symm

theorem findRunIndex_spec (he : d e = none) (hflag : ∀ y, flagged y → y % 2 ^ q = x % 2 ^ q)
    (hocc : (qf.slots q x).occupied = true) (hx : d x = some k) (hfuel : 2 ^ q ≤ fuel) :
    ∃ s, qf.findRunIndex fuel (slotIndex q x) = some (slotIndex q s) ∧ RunStart d x s := by
  have hpow : (0 : ℤ) < 2 ^ q := by positivity
  have hfuel' : (2 : ℤ) ^ q ≤ fuel := by exact_mod_cast hfuel
  -- the way back to the start of the cluster
  obtain ⟨p, hp, hp', hnone⟩ := hl.exists_hole hpow he (x - 2 ^ q + 1)
  obtain ⟨i, rfl⟩ : ∃ i : ℕ, p = x - i := ⟨(x - p).toNat, by omega⟩
  obtain ⟨m, hmi, hend, hmin⟩ := exists_first
    (P := fun i : ℕ => (qf.slots q (x - i)).shifted = false) (hl.shifted_of_none hnone)
  have hshift : ∀ i : ℕ, i < m → (qf.slots q (x - i)).shifted = true :=
    fun i hi => Bool.eq_true_of_not_eq_false (hmin i hi)
  have hfull : ∀ i : ℕ, i ≤ m → ∃ j, d (x - i) = some j := by
    intro i hi
    rcases i with - | i
    · exact ⟨k, by simpa using hx⟩
    · obtain ⟨j, hj⟩ := (hl.fits _).shifted.mp (hshift i hi)
      obtain ⟨j', hj', -⟩ := (hl.fits _).chained j hj
      refine ⟨j', ?_⟩
      rw [← hj']
      congr 1
      push_cast
      omega
  have hstart : d (x - m) = some 0 := by
    obtain ⟨j, hj⟩ := hfull m le_rfl
    rcases j with - | j
    · exact hj
    · have hs := (hl.fits _).shifted.mpr ⟨j, hj⟩
      rw [hend] at hs
      cases hs
  have hcluster : qf.findClusterStart fuel (slotIndex q x) = some (slotIndex q (x - m)) :=
    h.findClusterStart_eq (by omega) hshift hend
  rw [findRunIndex, hcluster]
  refine h.findRunFrom_spec hl he hflag hocc hfuel (RunStart.self hstart) (by omega) (by omega)
    (by omega) (fun y hy hyx => ?_) (.inr ⟨0, by simpa using hstart⟩)
  obtain ⟨i, rfl⟩ : ∃ i : ℕ, y = x - i := ⟨(x - y).toNat, by omega⟩
  exact hfull i (by omega)

/-! ### Looking through a run -/

theorem scanRun_spec {s₀ : ℤ} (he : d e = none) (fr : BitVec 64) (hse : s < e)
    (hfuel : e < s + fuel) (hk : d s = some k) (hhome : s - k = x) (hs₀ : s₀ ≤ s)
    (hbefore : ∀ p, s₀ ≤ p → p < s →
      ∃ j : ℕ, d p = some j ∧ p - j = x ∧ (qf.slots q p).remainder < fr.toNat) :
    (∃ s', qf.scanRun fr fuel (slotIndex q s) = some (true, slotIndex q s') ∧
        Stored (qf.slots q) d x fr.toNat) ∨
      ∃ s', qf.scanRun fr fuel (slotIndex q s) = some (false, slotIndex q s') ∧ s₀ ≤ s' ∧ s' ≤ e ∧
        (∀ p, s₀ ≤ p → p < s' →
          ∃ j : ℕ, d p = some j ∧ p - j = x ∧ (qf.slots q p).remainder < fr.toNat) ∧
        ∀ j : ℕ, d s' = some j → s' - j = x → fr.toNat < (qf.slots q s').remainder := by
  induction fuel generalizing s k with
  | zero => exact absurd hse (by push_cast at hfuel; omega)
  | succ fuel ih =>
    have hrem : (qf.slots q s).remainder = (getRemainder (qf.getElem (slotIndex q s))).toNat := rfl
    rw [scanRun]
    split
    · next heq =>
      refine .inl ⟨s, rfl, k, ?_, ?_⟩
      · rw [← hhome, Int.sub_add_cancel]
        exact hk
      · rw [← hhome, Int.sub_add_cancel, hrem, heq]
    · next hne =>
      split
      · next hgt =>
        refine .inr ⟨s, rfl, hs₀, hse.le, hbefore, fun j _ _ => ?_⟩
        rw [hrem]
        exact hgt
      · next hle =>
        have hlt : (qf.slots q s).remainder < fr.toNat := by
          rw [hrem]
          have hne' : (getRemainder (qf.getElem (slotIndex q s))).toNat ≠ fr.toNat :=
            fun hnat => hne (BitVec.eq_of_toNat_eq hnat)
          omega
        have hbefore' : ∀ p, s₀ ≤ p → p < s + 1 →
            ∃ j : ℕ, d p = some j ∧ p - j = x ∧ (qf.slots q p).remainder < fr.toNat := by
          intro p hp hp'
          rcases eq_or_lt_of_le (Int.lt_add_one_iff.mp hp') with rfl | hlt'
          · exact ⟨k, hk, hhome, hlt⟩
          · exact hbefore p hp hlt'
        rw [h.incr]
        split
        · next hcont =>
          obtain ⟨j, hj, hj'⟩ := (hl.fits (s + 1)).continuation.mp hcont
          rw [Int.add_sub_cancel, hk] at hj'
          cases hj'
          have hne' : s + 1 ≠ e := by
            rintro rfl
            rw [he] at hj
            cases hj
          exact ih (by omega) (by push_cast at hfuel; omega) hj (by push_cast; omega)
            (by omega) hbefore'
        · next hcont =>
          refine .inr ⟨s + 1, rfl, by omega, by omega, hbefore', fun j hj hhome' => ?_⟩
          have hbehind := hl.behind_of_not_continuation hk (Int.lt_succ s)
            (fun p hp hp' => absurd hp' (by omega)) (Bool.eq_false_of_not_eq_true hcont) j hj
          omega

end Find

/-! ### Moving slots -/

/-- One round of `insert_into` at a slot that is not empty: what stood there goes on. -/
theorem insertInto_step (h : qf.Shape q r) {curr : BitVec 64} (hcurr : Narrow r curr)
    (hocc : (slotOf curr).occupied = false) (hfull : (qf.slots q s).isEmpty = false) (fuel : ℕ) :
    ∃ curr' prev, insertInto (fuel + 1) qf (slotIndex q s) curr =
        insertInto fuel (qf.setElem (slotIndex q s) curr') (slotIndex q (s + 1)) prev ∧
      Narrow r curr' ∧ slotOf curr' = { slotOf curr with occupied := (qf.slots q s).occupied } ∧
      Narrow r prev ∧ slotOf prev = { qf.slots q s with occupied := false, shifted := true } := by
  have hprev : Narrow r (qf.getElem (slotIndex q s)) := h.narrow_getElem (slotIndex_lt h.qbits_lt s)
  have hne : ¬ isEmptyElement (qf.getElem (slotIndex q s)) = true := by
    rw [isEmptyElement_eq]
    exact Bool.not_eq_true _ ▸ hfull
  have hshift := slotOf_setShifted (qf.getElem (slotIndex q s))
  have hoccupied : isOccupied (setShifted (qf.getElem (slotIndex q s))) = (qf.slots q s).occupied :=
    congrArg Slot.occupied hshift
  rw [insertInto, if_neg hne, h.incr]
  dsimp only
  rw [hoccupied]
  cases hs : (qf.slots q s).occupied with
  | true =>
    refine ⟨setOccupied curr, clrOccupied (setShifted (qf.getElem (slotIndex q s))), rfl,
      hcurr.setOccupied, slotOf_setOccupied curr, hprev.setShifted.clrOccupied, ?_⟩
    rw [slotOf_clrOccupied, hshift]
    rfl
  | false =>
    refine ⟨curr, setShifted (qf.getElem (slotIndex q s)), rfl, hcurr, ?_, hprev.setShifted, ?_⟩
    · rw [← hocc]
    · rw [hshift, ← hs]
      rfl

theorem insertInto_spec (h : qf.Shape q r) {curr : BitVec 64} (hcurr : Narrow r curr)
    (hocc : (slotOf curr).occupied = false) (hse : s ≤ e) (hlt : e < s + 2 ^ q)
    (hfull : ∀ p, s ≤ p → p < e → (qf.slots q p).isEmpty = false)
    (hempty : (qf.slots q e).isEmpty = true) (hfuel : e < s + fuel) :
    ∃ qf', insertInto fuel qf (slotIndex q s) curr = some qf' ∧ qf'.Shape q r ∧
      qf'.entries = qf.entries ∧
      qf'.slots q s = { slotOf curr with occupied := (qf.slots q s).occupied } ∧
      (∀ p, s < p → p ≤ e → qf'.slots q p =
        { qf.slots q (p - 1) with occupied := (qf.slots q p).occupied, shifted := true }) ∧
      ∀ p, e < p → p < s + 2 ^ q → qf'.slots q p = qf.slots q p := by
  induction fuel generalizing qf s curr with
  | zero => exact absurd hse (by push_cast at hfuel; omega)
  | succ fuel ih =>
    rcases eq_or_lt_of_le hse with rfl | hse'
    · -- the empty slot takes the element
      have hprev : isEmptyElement (qf.getElem (slotIndex q s)) = true := by
        rw [isEmptyElement_eq]
        exact hempty
      have hoccupied : (qf.slots q s).occupied = false := by
        rw [Slot.isEmpty] at hempty
        simp only [Bool.and_eq_true, Bool.not_eq_true'] at hempty
        exact hempty.1.1
      refine ⟨qf.setElem (slotIndex q s) curr, ?_, h.setElem _ _, ?_, ?_,
        fun p hp hp' => absurd hp' (by omega), fun p hp hp' => ?_⟩
      · rw [insertInto, if_pos hprev]
      · obtain ⟨table, heq, -⟩ := qf.setElem_eq (slotIndex q s) curr
        rw [heq]
      · rw [h.slots_setElem hcurr, if_pos rfl, hoccupied, ← hocc]
      · rw [h.slots_setElem hcurr, if_neg (emod_ne_of_lt hp hp')]
    · obtain ⟨curr', prev, hstep, hcurr', hslot, hprev, hslot'⟩ :=
        h.insertInto_step hcurr hocc (hfull s le_rfl hse') fuel
      have hkeep : ∀ p, s < p → p < s + 2 ^ q →
          (qf.setElem (slotIndex q s) curr').slots q p = qf.slots q p := by
        intro p hp hp'
        rw [h.slots_setElem hcurr', if_neg (emod_ne_of_lt hp hp')]
      obtain ⟨qf', hrun, hshape, hentries, hnew, hmoved, hrest⟩ :=
        ih (h.setElem (slotIndex q s) curr') (s := s + 1) hprev
          (congrArg Slot.occupied hslot') (by omega) (by omega)
          (fun p hp hp' => by rw [hkeep p (by omega) (by omega)]; exact hfull p (by omega) hp')
          (by rw [hkeep e hse' hlt]; exact hempty) (by push_cast at hfuel; omega)
      refine ⟨qf', hstep.trans hrun, hshape, ?_, ?_, fun p hp hp' => ?_, fun p hp hp' => ?_⟩
      · obtain ⟨table, heq, -⟩ := qf.setElem_eq (slotIndex q s) curr'
        rw [hentries, heq]
      · -- one round later the slot is behind those that move
        have hround := hrest (s + 2 ^ q) hlt (by omega)
        rw [slots_periodic, slots_periodic, h.slots_setElem hcurr', if_pos rfl, hslot] at hround
        exact hround
      · rcases eq_or_lt_of_le (show s + 1 ≤ p from hp) with rfl | hlt'
        · rw [hnew, hslot', hkeep (s + 1) (by omega) (by omega), Int.add_sub_cancel]
        · rw [hmoved p hlt' hp', hkeep p hp (by omega), hkeep (p - 1) (by omega) (by omega)]
      · rw [hrest p hp (by omega), hkeep p (by omega) hp']

/-! ### Inserting an element -/

section Insert

variable {T : ℤ → Slot ℕ} {x s e : ℤ} {c : Bool} {fr entry : BitVec 64}

/-- The end of `qf_insert`.  The table is that of `T`, except that the old head of the run has been
made a continuation. -/
theorem insertEntry_spec (h : qf.Shape q r) (hl : Layout (2 ^ q) T d flagged)
    (hplace : Place T d x fr.toNat s) (hse : s ≤ e) (hlt : e + 1 < x + 2 ^ q)
    (hfull : ∀ p, s ≤ p → p < e → ∃ k, d p = some k) (hhole : d e = none)
    (hT : ∀ p, ∃ c, qf.slots q p = { T p with continuation := c })
    (hkept : ∀ p, p % 2 ^ q ≠ s % 2 ^ q → qf.slots q p = T p)
    (hempty : (qf.slots q e).isEmpty = true)
    (hhead : s < e → ((qf.slots q s).continuation = true ↔ ∃ k : ℕ, d s = some k ∧ s - k = x))
    (hentry : slotOf entry = ⟨false, c, false, fr.toNat⟩) (hnarrow : Narrow r entry)
    (hc : c = true ↔ ∃ k : ℕ, d (s - 1) = some k ∧ s - 1 - k = x) (hfuel : 2 ^ q ≤ fuel) :
    ∃ qf', qf.insertEntry fuel (slotIndex q x) (slotIndex q s) entry = some (true, qf') ∧
      qf'.Shape q r ∧ qf'.entries = (qf.entries + 1) % 2 ^ 32 ∧
      Inserted (2 ^ q) T (qf'.slots q) d x fr.toNat s e := by
  have hfuel' : (2 : ℤ) ^ q ≤ fuel := by exact_mod_cast hfuel
  have hxs := hplace.le
  -- the shifted bit
  obtain ⟨entry', hshifted, hnarrow', hslot'⟩ : ∃ entry',
      (if slotIndex q s ≠ slotIndex q x then setShifted entry else entry) = entry' ∧
        Narrow r entry' ∧ slotOf entry' = ⟨false, c, decide (x < s), fr.toNat⟩ := by
    rcases eq_or_lt_of_le hxs with rfl | hxs'
    · refine ⟨entry, by simp, hnarrow, ?_⟩
      rw [hentry]
      simp
    · have hne : slotIndex q s ≠ slotIndex q x := by
        rw [Ne, slotIndex_eq_iff h.qbits_lt]
        exact emod_ne_of_lt hxs' (by omega)
      refine ⟨setShifted entry, by rw [if_pos hne], hnarrow.setShifted, ?_⟩
      rw [slotOf_setShifted, hentry, decide_eq_true hxs']
  have hfull' : ∀ p, s ≤ p → p < e → (qf.slots q p).isEmpty = false := by
    intro p hp hp'
    obtain ⟨k, hk⟩ := hfull p hp hp'
    obtain ⟨c', hc'⟩ := hT p
    have hne := hl.isEmpty_eq_false hk
    rw [hc']
    rw [Slot.isEmpty] at hne ⊢
    dsimp only
    cases hcont : (T p).continuation with
    | false =>
      rw [hcont] at hne
      cases c' with
      | false => exact hne
      | true => simp
    | true =>
      -- a continuation is shifted
      obtain ⟨k', hk', -⟩ := (hl.fits p).continuation.mp hcont
      rw [(hl.fits p).shifted.mpr ⟨k', hk'⟩]
      simp
  obtain ⟨qf', hrun, hshape, hentries, hnew, hmoved, hrest⟩ :=
    h.insertInto_spec hnarrow' (congrArg Slot.occupied hslot') hse (by omega) hfull' hempty
      (show e < s + fuel by omega)
  have hocc : ∀ p, (qf.slots q p).occupied = (T p).occupied := by
    intro p
    obtain ⟨c', hc'⟩ := hT p
    rw [hc']
  refine ⟨{ qf' with entries := (qf'.entries + 1) % 2 ^ 32 }, ?_, { hshape with }, ?_, ?_⟩
  · rw [insertEntry, hshifted, hrun]
    rfl
  · rw [hentries]
  · have hslots : ({ qf' with entries := (qf'.entries + 1) % 2 ^ 32 } : QuotientFilter).slots q =
        qf'.slots q := rfl
    have hpow : (0 : ℤ) < 2 ^ q := by positivity
    rw [hslots]
    constructor
    case place => exact hplace
    case le => exact hse
    case lt => exact hlt
    case full => exact hfull
    case hole => exact hhole
    case slots => exact slots_periodic qf'
    case occupied =>
      intro p
      obtain ⟨p, m, hp, hp', rfl⟩ := exists_round hpow s p
      rw [periodic_mul (slots_periodic qf'), periodic_mul hl.slots, ← hocc]
      rcases eq_or_lt_of_le hp with rfl | hp
      · rw [hnew]
      · rcases lt_or_ge e p with hpe | hpe
        · rw [hrest p hpe hp']
        · rw [hmoved p hp hpe]
    case kept =>
      intro p hp hp' hor
      rcases hor with hps | hpe
      · -- one round later it is behind those that move
        have hround := hrest (p + 2 ^ q) (by omega) (by omega)
        rw [slots_periodic, slots_periodic] at hround
        rw [hround, hkept p (emod_ne_of_lt hps (by omega)).symm]
      · rw [hrest p hpe (by omega), hkept p (emod_ne_of_lt (by omega) (by omega))]
    case new_continuation =>
      rw [hnew, hslot']
      exact hc
    case new_shifted =>
      rw [hnew, hslot']
      exact decide_eq_true_iff
    case new_remainder => rw [hnew, hslot']
    case next_continuation =>
      intro hse'
      rw [hmoved (s + 1) (by omega) (by omega), Int.add_sub_cancel]
      exact hhead hse'
    case moved_continuation =>
      intro p hp hp'
      rw [hmoved p (by omega) hp', hkept (p - 1) (emod_ne_of_lt (by omega) (by omega))]
    case moved_shifted =>
      intro p hp hp'
      rw [hmoved p hp hp']
    case moved_remainder =>
      intro p hp hp'
      obtain ⟨c', hc'⟩ := hT (p - 1)
      rw [hmoved p hp hp', hc']

end Insert

end Shape

/-! ### The filter -/

theorem entries_setElem (qf : QuotientFilter) (idx elt : BitVec 64) :
    (qf.setElem idx elt).entries = qf.entries := by
  obtain ⟨table, heq, -⟩ := qf.setElem_eq idx elt
  rw [heq]

theorem Shape.slots_update (h : qf.Shape q r) {f : BitVec 64 → BitVec 64} {g : Slot ℕ → Slot ℕ}
    (hf : ∀ elt, slotOf (f elt) = g (slotOf elt)) (hnarrow : ∀ elt, Narrow r elt → Narrow r (f elt))
    (a p : ℤ) :
    (qf.setElem (slotIndex q a) (f (qf.getElem (slotIndex q a)))).slots q p =
      if p % 2 ^ q = a % 2 ^ q then g (qf.slots q p) else qf.slots q p := by
  rw [h.slots_setElem (hnarrow _ (h.narrow_getElem (slotIndex_lt h.qbits_lt a))), hf]
  split
  · next hmod => rw [slots, (slotIndex_eq_iff h.qbits_lt).mpr hmod]
  · rfl

/-- The filter holds elements that are `d` behind their homes. -/
structure Represents (q r : ℕ) (qf : QuotientFilter) (d : ℤ → Option ℕ) : Prop where
  shape : qf.Shape q r
  layout : Layout (2 ^ q) (qf.slots q) d fun _ => False
  entries : qf.entries = used (2 ^ q) d

/-- The home of a hash, as a position. -/
def homeOf (r : ℕ) (hash : BitVec 64) : ℤ := (hash >>> r).toNat

/-- The remainder of `hash` is stored under its home. -/
def Contains (q r : ℕ) (qf : QuotientFilter) (d : ℤ → Option ℕ) (hash : BitVec 64) : Prop :=
  Stored (qf.slots q) d (homeOf r hash) (hash &&& lowMask r).toNat

/-- What an insertion gives: the new hash is there, and all others still are. -/
structure Gains (q r : ℕ) (qf : QuotientFilter) (d : ℤ → Option ℕ) (hash : BitVec 64)
    (qf' : QuotientFilter) (d' : ℤ → Option ℕ) : Prop where
  represents : Represents q r qf' d'
  contains : Contains q r qf' d' hash
  keeps : ∀ other, Contains q r qf d other → Contains q r qf' d' other
  used_le : used (2 ^ q) d' ≤ used (2 ^ q) d + 1

theorem Shape.hashToQuotient (h : qf.Shape q r) (hash : BitVec 64) :
    qf.hashToQuotient hash = slotIndex q (homeOf r hash) := by
  have heq : hash >>> r = BitVec.ofInt 64 (homeOf r hash) := by
    rw [homeOf, BitVec.ofInt_natCast, BitVec.ofNat_toNat, BitVec.setWidth_eq]
  rw [QuotientFilter.hashToQuotient, h.rbits, h.indexMask, heq, ofInt_and_lowMask h.qbits_lt]

section Spec

variable {T : ℤ → Slot ℕ} {s e : ℤ} {hash : BitVec 64} {qf' : QuotientFilter}

/-- The element has been put into a table that differs from the filter in the mark of its home at
most. -/
theorem Represents.gains (h : Represents q r qf d) (hq : q ≤ 32)
    (hused : used (2 ^ q) d + 1 < 2 ^ q) (hl : Layout (2 ^ q) T d flagged)
    (hflag : ∀ y, flagged y → ∃ m : ℤ, y = homeOf r hash + m * 2 ^ q)
    (hocc : (T (homeOf r hash)).occupied = true)
    (hrem : ∀ p, (T p).remainder = (qf.slots q p).remainder) (hshape : qf'.Shape q r)
    (hentries : qf'.entries = (qf.entries + 1) % 2 ^ 32)
    (hi : Inserted (2 ^ q) T (qf'.slots q) d (homeOf r hash) (hash &&& lowMask r).toNat s e) :
    Gains q r qf d hash qf' (insertAt (2 ^ q) (homeOf r hash) s e d) := by
  have huse := hi.used_eq (N := 2 ^ q) (by push_cast; rfl) hl
  have hpow : 2 ^ q ≤ 2 ^ 32 := Nat.pow_le_pow_right (by decide) hq
  refine ⟨⟨hshape, hl.insert hi hflag hocc, ?_⟩, hi.stored_new hl, fun other hother => ?_, huse.le⟩
  · rw [hentries, huse, h.entries, Nat.mod_eq_of_lt (by omega)]
  · obtain ⟨k, hk, hkrem⟩ := hother
    exact hi.stored hl ⟨k, hk, (hrem _).trans hkrem⟩

theorem Represents.mark (h : Represents q r qf d) (x : ℤ) {T : ℤ → Slot ℕ}
    (hT : ∀ p, T p = if p % 2 ^ q = x % 2 ^ q then { qf.slots q p with occupied := true }
      else qf.slots q p) :
    Layout (2 ^ q) T d fun y => ∃ m : ℤ, y = x + m * 2 ^ q := by
  refine h.layout.flag (fun p => ?_) (fun p => ?_) fun y => ?_
  · rw [hT, hT, slots_periodic, Int.add_emod_right]
  · rw [hT]
    split <;> exact ⟨rfl, rfl, rfl⟩
  · rw [hT, ← emod_eq_iff]
    split
    · next hmod => simp [hmod]
    · next hmod => simp [hmod]

theorem remainder_bits (hr : r + 3 < 64) (hash : BitVec 64) (j : ℕ) (hj : r ≤ j) :
    (hash &&& lowMask r).getLsbD j = false := by
  rw [BitVec.getLsbD_and, getLsbD_lowMask (by omega), decide_eq_false (by omega), Bool.and_false]

theorem Represents.insert_empty (h : Represents q r qf d) (hq : q ≤ 32)
    (hused : used (2 ^ q) d + 1 < 2 ^ q) (hnone : d (homeOf r hash) = none) :
    ∃ qf' d', { qf.setElem (slotIndex q (homeOf r hash))
        (setOccupied ((hash &&& lowMask r) <<< 3 &&& ~~~7#64)) with
          entries := (qf.entries + 1) % 2 ^ 32 } = qf' ∧ Gains q r qf d hash qf' d' := by
  have hs := h.shape
  obtain ⟨hentry, hnarrow⟩ := slotOf_entry hs.elemBits_lt (remainder_bits hs.elemBits_lt hash)
  have hpow : (2 : ℤ) ≤ 2 ^ q := by
    have : 2 ≤ 2 ^ q := by omega
    exact_mod_cast this
  have hnew : ∀ p, ({ qf.setElem (slotIndex q (homeOf r hash))
      (setOccupied ((hash &&& lowMask r) <<< 3 &&& ~~~7#64)) with
        entries := (qf.entries + 1) % 2 ^ 32 } : QuotientFilter).slots q p =
      if p % 2 ^ q = homeOf r hash % 2 ^ q then ⟨true, false, false, (hash &&& lowMask r).toNat⟩
      else qf.slots q p := by
    intro p
    have hslot := hs.slots_setElem hnarrow.setOccupied (homeOf r hash) p
    rw [slotOf_setOccupied, hentry] at hslot
    exact hslot
  refine ⟨_, _, rfl, h.gains hq hused (h.mark (homeOf r hash) (fun _ => rfl)) (fun _ hf => hf)
    ?_ (fun p => ?_) { hs.setElem _ _ with } rfl (s := homeOf r hash) (e := homeOf r hash) ?_⟩
  · rw [if_pos rfl]
  · split <;> rfl
  · constructor
    case place =>
      refine ⟨le_rfl, fun p hp hp' => absurd hp hp'.not_ge, fun k hk => ?_⟩
      rw [hnone] at hk
      cases hk
    case le => exact le_rfl
    case lt => omega
    case full => exact fun p hp hp' => absurd hp hp'.not_ge
    case hole => exact hnone
    case slots => exact slots_periodic _
    case occupied =>
      intro p
      rw [hnew]
      split <;> rfl
    case kept =>
      intro p hp hp' hor
      rw [hnew, if_neg (emod_ne_of_lt (by omega) hp'), if_neg (emod_ne_of_lt (by omega) hp')]
    case new_continuation =>
      rw [hnew, if_pos rfl]
      refine ⟨fun hf => absurd hf Bool.false_ne_true, ?_⟩
      rintro ⟨k, -, hk⟩
      omega
    case new_shifted =>
      rw [hnew, if_pos rfl]
      exact ⟨fun hf => absurd hf Bool.false_ne_true, fun hf => absurd hf (lt_irrefl _)⟩
    case new_remainder => rw [hnew, if_pos rfl]
    case next_continuation => exact fun hf => absurd hf (lt_irrefl _)
    case moved_continuation => exact fun p hp hp' => absurd hp (by omega)
    case moved_shifted => exact fun p hp hp' => absurd hp (by omega)
    case moved_remainder => exact fun p hp hp' => absurd hp (by omega)

section Occupied

variable {fuel : ℕ} (h : Represents q r qf d) (hq : q ≤ 32) (hused : used (2 ^ q) d + 1 < 2 ^ q)
  (hfuel : 2 ^ q ≤ fuel)

include h hused in
theorem Represents.exists_hole (x : ℤ) : ∃ e, x ≤ e ∧ e + 1 < x + 2 ^ q ∧ d e = none ∧
    ∀ p, x ≤ p → p < e → ∃ k, d p = some k := by
  have hplaces : Function.Periodic d (2 ^ q : ℕ) := by
    push_cast
    exact h.layout.places
  have hhole := exists_first_hole hplaces hused x
  push_cast at hhole
  exact hhole

include h hq hused hfuel

theorem Represents.insertNewRun_spec (hk : d (homeOf r hash) = some k)
    (hocc : (qf.slots q (homeOf r hash)).occupied = false) :
    ∃ qf' d', qf.insertNewRun fuel (slotIndex q (homeOf r hash))
      ((hash &&& lowMask r) <<< 3 &&& ~~~7#64) = some (true, qf') ∧ Gains q r qf d hash qf' d' := by
  rw [insertNewRun]
  have hs := h.shape
  obtain ⟨hentry, hnarrow⟩ := slotOf_entry hs.elemBits_lt (remainder_bits hs.elemBits_lt hash)
  obtain ⟨e, hxe, hex, he, hfull⟩ := h.exists_hole hused (homeOf r hash)
  have hmark := hs.slots_update (g := fun t => { t with occupied := true }) slotOf_setOccupied
    (fun _ => Narrow.setOccupied) (homeOf r hash)
  have hl := h.mark (homeOf r hash) hmark
  have hs₁ := hs.setElem (slotIndex q (homeOf r hash))
    (setOccupied (qf.getElem (slotIndex q (homeOf r hash))))
  have hentries := qf.entries_setElem (slotIndex q (homeOf r hash))
    (setOccupied (qf.getElem (slotIndex q (homeOf r hash))))
  generalize qf.setElem (slotIndex q (homeOf r hash))
    (setOccupied (qf.getElem (slotIndex q (homeOf r hash)))) = qf₁ at *
  have hrun : ¬ HasRun d (homeOf r hash) := by
    intro hrun
    rw [(h.layout.occupied _).mpr (.inl hrun)] at hocc
    cases hocc
  have hne : homeOf r hash ≠ e := by
    intro heq
    rw [heq, he] at hk
    cases hk
  obtain ⟨s, hfind, hstart⟩ := hs₁.findRunIndex_spec hl he
    (fun y hy => emod_eq_iff.mpr hy) (by rw [hmark, if_pos rfl]) hk hfuel
  have hempty : (qf₁.slots q e).isEmpty = true := by
    rw [hl.isEmpty_iff, he]
    rw [← emod_eq_iff]
    exact emod_ne_of_lt (by omega) (by omega)
  have hnone : ∀ p, ¬ ∃ k : ℕ, d p = some k ∧ p - k = homeOf r hash := by
    rintro p ⟨k, hk, hhome⟩
    exact hrun (hasRun_of_home hk hhome)
  have hhead : (qf₁.slots q s).continuation = true ↔
      ∃ k : ℕ, d s = some k ∧ s - k = homeOf r hash := by
    rw [hl.continuation_of_start hstart]
    exact iff_of_false Bool.false_ne_true (hnone s)
  obtain ⟨qf', hinsert, hs', hentries', hi⟩ := hs₁.insertEntry_spec hl (hstart.place hrun _)
    (hstart.le_of_hole hxe he) hex (fun p hp hp' => hfull p (hstart.le.trans hp) hp') he
    (fun p => ⟨_, rfl⟩) (fun _ _ => rfl) hempty (fun _ => hhead) hentry hnarrow
    (iff_of_false Bool.false_ne_true (hnone (s - 1))) hfuel
  refine ⟨qf', _, ?_, h.gains hq hused hl (fun _ hf => hf) ?_ (fun p => ?_) hs' ?_ hi⟩
  · rw [hfind]
    exact hinsert
  · rw [hmark, if_pos rfl]
  · rw [hmark]
    split <;> rfl
  · rw [hentries', hentries]

theorem Represents.insertInRun_spec (hocc : (qf.slots q (homeOf r hash)).occupied = true) :
    ∃ qf' d', qf.insertInRun fuel (slotIndex q (homeOf r hash)) (hash &&& lowMask r)
      ((hash &&& lowMask r) <<< 3 &&& ~~~7#64) = some (true, qf') ∧ Gains q r qf d hash qf' d' := by
  have hs := h.shape
  have hl := h.layout
  have hfuel' : (2 : ℤ) ^ q ≤ fuel := by exact_mod_cast hfuel
  obtain ⟨hentry, hnarrow⟩ := slotOf_entry hs.elemBits_lt (remainder_bits hs.elemBits_lt hash)
  obtain ⟨e, hxe, hex, he, hfull⟩ := h.exists_hole hused (homeOf r hash)
  have hrun : HasRun d (homeOf r hash) := ((hl.occupied _).mp hocc).resolve_right id
  obtain ⟨k, hk⟩ := id hrun
  obtain ⟨k₀, hk₀, -⟩ := hl.filled hk (show homeOf r hash + k - k ≤ homeOf r hash by omega) (by omega)
  obtain ⟨s₀, hfind, hstart⟩ := hs.findRunIndex_spec hl he (fun y hy => hy.elim) hocc hk₀ hfuel
  obtain ⟨j, hj, hhome⟩ := hl.head_of_start hstart hrun
  have hle := hstart.le_of_hole hxe he
  have hne : s₀ ≠ e := by
    rintro rfl
    rw [he] at hj
    cases hj
  have hempty : (qf.slots q e).isEmpty = true := (hl.isEmpty_iff id).mpr he
  have hx := hstart.le
  have hscan := hs.scanRun_spec hl he (hash &&& lowMask r)
    (show s₀ < e by omega) (show e < s₀ + fuel by omega) hj hhome le_rfl (fun p hp hp' => absurd hp hp'.not_ge)
  rcases hscan with ⟨s, hscan, hstored⟩ | ⟨s, hscan, hs₀, hse, hbefore, hafter⟩
  · refine ⟨qf, d, ?_, h, hstored, fun _ hother => hother, Nat.le_succ _⟩
    rw [insertInRun, hfind, bind_eq_bind, bind_some, hscan]
    rfl
  · have hinsertInRun : qf.insertInRun fuel (slotIndex q (homeOf r hash)) (hash &&& lowMask r)
        ((hash &&& lowMask r) <<< 3 &&& ~~~7#64) = if slotIndex q s = slotIndex q s₀ then
          (qf.setElem (slotIndex q s₀) (setContinuation (qf.getElem (slotIndex q s₀)))).insertEntry
            fuel (slotIndex q (homeOf r hash)) (slotIndex q s)
            ((hash &&& lowMask r) <<< 3 &&& ~~~7#64)
        else qf.insertEntry fuel (slotIndex q (homeOf r hash)) (slotIndex q s)
          (setContinuation ((hash &&& lowMask r) <<< 3 &&& ~~~7#64)) := by
      rw [insertInRun, hfind, bind_eq_bind, bind_some, hscan]
      rfl
    rw [hinsertInRun]
    have hplace := hl.place_in_run hstart hrun hs₀ hbefore hafter
    have hfull' : ∀ p, s ≤ p → p < e → ∃ k, d p = some k :=
      fun p hp hp' => hfull p (by omega) hp'
    rcases eq_or_lt_of_le hs₀ with rfl | hlt
    · -- in front of the others
      have hcont := hs.slots_update (g := fun t => { t with continuation := true })
        slotOf_setContinuation (fun _ => Narrow.setContinuation) s₀
      have hs₁ := hs.setElem (slotIndex q s₀) (setContinuation (qf.getElem (slotIndex q s₀)))
      have hentries := qf.entries_setElem (slotIndex q s₀)
        (setContinuation (qf.getElem (slotIndex q s₀)))
      rw [if_pos rfl]
      generalize qf.setElem (slotIndex q s₀) (setContinuation (qf.getElem (slotIndex q s₀))) = qf₁
        at *
      have hkept : ∀ p, p % 2 ^ q ≠ s₀ % 2 ^ q → qf₁.slots q p = qf.slots q p := by
        intro p hp
        rw [hcont, if_neg hp]
      have hT : ∀ p, ∃ c, qf₁.slots q p = { qf.slots q p with continuation := c } := by
        intro p
        rw [hcont]
        split
        · exact ⟨true, rfl⟩
        · exact ⟨_, rfl⟩
      have hempty' : (qf₁.slots q e).isEmpty = true := by
        rw [hkept e (emod_ne_of_lt (by omega) (by omega))]
        exact hempty
      have hhead : (qf₁.slots q s₀).continuation = true ↔
          ∃ k : ℕ, d s₀ = some k ∧ s₀ - k = homeOf r hash := by
        rw [hcont, if_pos rfl]
        exact iff_of_true rfl ⟨j, hj, hhome⟩
      have hnone : ¬ ∃ k : ℕ, d (s₀ - 1) = some k ∧ s₀ - 1 - k = homeOf r hash := by
        rintro ⟨k, hk, hhome⟩
        exact hstart.home_ne_before hk hhome
      obtain ⟨qf', hinsert, hs', hentries', hi⟩ := hs₁.insertEntry_spec hl hplace hse hex hfull' he
        hT hkept hempty' (fun _ => hhead) hentry hnarrow (iff_of_false Bool.false_ne_true hnone)
        hfuel
      exact ⟨qf', _, hinsert, h.gains hq hused hl (fun _ hf => hf.elim) hocc (fun _ => rfl) hs'
        (by rw [hentries', hentries]) hi⟩
    · -- behind the one before it
      have hne' : slotIndex q s ≠ slotIndex q s₀ := by
        rw [Ne, slotIndex_eq_iff hs.qbits_lt]
        exact emod_ne_of_lt hlt (by omega)
      obtain ⟨i, hi, hhome', -⟩ := hbefore (s - 1) (by omega) (by omega)
      have hhead : (qf.slots q s).continuation = true ↔
          ∃ k : ℕ, d s = some k ∧ s - k = homeOf r hash := by
        rw [(hl.fits s).continuation]
        constructor
        · rintro ⟨k, hk, hk'⟩
          rw [hi] at hk'
          cases hk'
          exact ⟨i + 1, hk, by push_cast; omega⟩
        · rintro ⟨k, hk, hhome''⟩
          obtain rfl : k = i + 1 := by omega
          exact ⟨i, hk, hi⟩
      have hentry' : slotOf (setContinuation ((hash &&& lowMask r) <<< 3 &&& ~~~7#64)) =
          ⟨false, true, false, (hash &&& lowMask r).toNat⟩ := by
        rw [slotOf_setContinuation, hentry]
      rw [if_neg hne']
      obtain ⟨qf', hinsert, hs', hentries', hi'⟩ := hs.insertEntry_spec hl hplace hse hex hfull' he
        (fun p => ⟨_, rfl⟩) (fun _ _ => rfl) hempty (fun _ => hhead) hentry'
        hnarrow.setContinuation (iff_of_true rfl ⟨i, hi, hhome'⟩) hfuel
      exact ⟨qf', _, hinsert, h.gains hq hused hl (fun _ hf => hf.elim) hocc (fun _ => rfl) hs'
        hentries' hi'⟩

/-- **`qf_insert`** takes a hash as long as two slots are empty, and keeps the others. -/
theorem Represents.insert_spec (hash : BitVec 64) :
    ∃ qf' d', qf.insert fuel hash = some (true, qf') ∧ Gains q r qf d hash qf' d' := by
  have hs := h.shape
  have hroom : ¬ qf.entries ≥ qf.maxSize := by
    rw [h.entries, hs.maxSize]
    omega
  have hfr : qf.hashToRemainder hash = hash &&& lowMask r := by rw [hashToRemainder, hs.rmask]
  rw [insert, if_neg hroom, hfr, hs.hashToQuotient hash]
  dsimp only
  rw [isEmptyElement_eq]
  split
  · next hempty =>
    obtain ⟨qf', d', rfl, hgains⟩ := h.insert_empty hq hused ((h.layout.isEmpty_iff id).mp hempty)
    exact ⟨_, d', by rw [entries_setElem], hgains⟩
  · next hfull =>
    split
    · next hocc => exact h.insertInRun_spec hq hused hfuel hocc
    · next hocc =>
      obtain ⟨k, hk⟩ := ne_none_iff_exists'.mp (mt (h.layout.isEmpty_iff id).mpr hfull)
      exact h.insertNewRun_spec hq hused hfuel hk (Bool.eq_false_of_not_eq_true hocc)

end Occupied

/-- **`qf_may_contain`** finds what has been inserted. -/
theorem Represents.mayContain_spec (h : Represents q r qf d) (hused : used (2 ^ q) d < 2 ^ q)
    (hfuel : 2 ^ q ≤ fuel) (hcontains : Contains q r qf d hash) :
    qf.mayContain fuel hash = some true := by
  have hs := h.shape
  have hl := h.layout
  have hfr : qf.hashToRemainder hash = hash &&& lowMask r := by rw [hashToRemainder, hs.rmask]
  have hocc : (qf.slots q (homeOf r hash)).occupied = true :=
    (hl.occupied _).mpr (.inl hcontains.hasRun)
  rw [mayContain, hfr, hs.hashToQuotient hash]
  dsimp only
  rw [if_pos (show isOccupied (qf.getElem (slotIndex q (homeOf r hash))) = true from hocc)]
  have hpow : (0 : ℤ) < 2 ^ q := by positivity
  have hfuel' : (2 : ℤ) ^ q ≤ fuel := by exact_mod_cast hfuel
  obtain ⟨e₀, he₀⟩ := exists_hole_of_used hused
  obtain ⟨k, hk, hrem⟩ := id hcontains
  obtain ⟨k₀, hk₀, -⟩ := hl.filled hk (show homeOf r hash + k - k ≤ homeOf r hash by omega) (by omega)
  obtain ⟨s₀, hfind, hstart⟩ := hs.findRunIndex_spec hl he₀ (fun y hy => hy.elim) hocc hk₀ hfuel
  obtain ⟨j, hj, hhome⟩ := hl.head_of_start hstart hcontains.hasRun
  obtain ⟨e, hse, hes, he⟩ := hl.exists_hole hpow he₀ s₀
  have hne : s₀ ≠ e := by
    rintro rfl
    rw [he] at hj
    cases hj
  have hscan := hs.scanRun_spec hl he (hash &&& lowMask r)
    (show s₀ < e by omega) (show e < s₀ + fuel by omega) hj hhome le_rfl (fun p hp hp' => absurd hp hp'.not_ge)
  rcases hscan with ⟨s, hscan, -⟩ | ⟨s, hscan, hs₀, -, hbefore, hafter⟩
  · rw [hfind, bind_eq_bind, bind_some, hscan]
    rfl
  · -- the element is not before the place where the search has stopped, and not behind it
    exfalso
    have hge : s₀ ≤ homeOf r hash + k := by
      by_contra hlt
      obtain ⟨i, hi, hhome'⟩ := hstart.before _ (show homeOf r hash ≤ homeOf r hash + k by omega)
        (by omega)
      rw [hk] at hi
      cases hi
      omega
    rcases lt_or_ge (homeOf r hash + k) s with hlt | hle
    · obtain ⟨-, -, -, hlt'⟩ := hbefore _ hge hlt
      omega
    · obtain ⟨i, hi, hhome'⟩ := hl.between hj hk (by omega) hs₀ hle
      have hgt := hafter i hi (by omega)
      rcases eq_or_lt_of_le hle with rfl | hlt
      · omega
      · have := hl.remainder_lt hi hk (by omega) hlt
        omega

end Spec

end QuotientFilter

end HedgeDB
