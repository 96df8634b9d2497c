/-
HedgeDB/Run.lean

Runs of a labelled partial step function.

A component is given by `step : σ → α → Option σ`: the label says which atomic
action is tried and resolves every choice, and `none` means the action is not
enabled.  A run is the list of its labels.

Six rules carry all run-level results:

* `exec_invariant` — a property that every enabled step preserves holds in every state
  a run reaches, where the steps may be assumed to meet a side condition (`AllSteps`);
* `AllSteps.and_invariant` — such a property may be assumed wherever a step is taken;
* `exec_isSome_iff_allSteps` — where the side condition says when a step is enabled,
  it says when a run is;
* `exec_simulation` — the invariant rule for a relation to an abstract state;
* `exec_progress` — the same, where the relation also gives every step its result;
* `exec_record` — the same for a record of the run.
-/
import Mathlib.Data.List.Basic
import Mathlib.Data.Option.Basic

namespace Run

variable {σ α : Type*}

/-- Execute the labels in order, from `s`. -/
def exec (step : σ → α → Option σ) : σ → List α → Option σ
  | s, [] => some s
  | s, a :: as => (step s a).bind fun t => exec step t as

/-- Every label of the run is taken in a state that meets `C`. -/
def AllSteps (step : σ → α → Option σ) (C : σ → α → Prop) : σ → List α → Prop
  | _, [] => True
  | s, a :: as => C s a ∧ ∀ t, step s a = some t → AllSteps step C t as

variable {step : σ → α → Option σ} {C : σ → α → Prop}

instance decidableAllSteps [∀ s a, Decidable (C s a)] :
    ∀ s as, Decidable (AllSteps step C s as)
  | _, [] => isTrue trivial
  | s, a :: as =>
      match h : step s a with
      | none =>
          decidable_of_iff (C s a)
            ⟨fun hc => ⟨hc, fun t ht => by rw [h] at ht; cases ht⟩, And.left⟩
      | some t =>
          have := decidableAllSteps t as
          decidable_of_iff (C s a ∧ AllSteps step C t as)
            ⟨fun ⟨hc, ht⟩ => ⟨hc, fun u hu => by rw [h] at hu; cases hu; exact ht⟩,
              fun ⟨hc, ht⟩ => ⟨hc, ht t h⟩⟩

variable {as : List α} {s u : σ}

theorem exec_cons_inv {a : α} (h : exec step s (a :: as) = some u) :
    ∃ t, step s a = some t ∧ exec step t as = some u :=
  Option.bind_eq_some_iff.mp h

theorem exec_cons {t : σ} {a : α} (h : step s a = some t) :
    exec step s (a :: as) = exec step t as := by
  rw [exec, h, Option.bind_some]

theorem exec_append {bs : List α} :
    exec step s (as ++ bs) = (exec step s as).bind fun t => exec step t bs := by
  induction as generalizing s with
  | nil => rfl
  | cons a as ih => simp only [List.cons_append, exec, ih, Option.bind_assoc]

theorem allSteps_true (s : σ) (as : List α) : AllSteps step (fun _ _ => True) s as := by
  induction as generalizing s with
  | nil => trivial
  | cons a as ih => exact ⟨trivial, fun t _ => ih t⟩

theorem allSteps_of_forall {P : α → Prop} (h : ∀ a ∈ as, P a) :
    AllSteps step (fun _ a => P a) s as := by
  induction as generalizing s with
  | nil => trivial
  | cons a as ih =>
    exact ⟨h a List.mem_cons_self, fun t _ => ih fun b hb => h b (List.mem_cons_of_mem _ hb)⟩

theorem AllSteps.and {D : σ → α → Prop} (hC : AllSteps step C s as) (hD : AllSteps step D s as) :
    AllSteps step (fun s a => C s a ∧ D s a) s as := by
  induction as generalizing s with
  | nil => trivial
  | cons a as ih => exact ⟨⟨hC.1, hD.1⟩, fun t ht => ih (hC.2 t ht) (hD.2 t ht)⟩

variable {I : σ → Prop}

/-- **The invariant rule.**  What every enabled step preserves, under the side
condition its source state meets, holds wherever a run from a good state
ends. -/
theorem exec_invariant (hstep : ∀ s a t, I s → C s a → step s a = some t → I t) (hs : I s)
    (hall : AllSteps step C s as) (hrun : exec step s as = some u) : I u := by
  induction as generalizing s with
  | nil =>
    obtain rfl := Option.some.inj hrun
    exact hs
  | cons a as ih =>
    obtain ⟨t, ht, hrest⟩ := exec_cons_inv hrun
    exact ih (hstep s a t hs hall.1 ht) (hall.2 t ht) hrest

theorem AllSteps.and_invariant (hstep : ∀ s a t, I s → C s a → step s a = some t → I t) (hs : I s)
    (hall : AllSteps step C s as) : AllSteps step (fun s a => I s ∧ C s a) s as := by
  induction as generalizing s with
  | nil => trivial
  | cons a as ih =>
    exact ⟨⟨hs, hall.1⟩, fun t ht => ih (hstep s a t hs hall.1 ht) (hall.2 t ht)⟩

theorem exec_isSome_iff_allSteps (hstep : ∀ s a t, I s → step s a = some t → I t)
    (hC : ∀ s a, I s → ((step s a).isSome ↔ C s a)) (hs : I s) :
    (exec step s as).isSome ↔ AllSteps step C s as := by
  induction as generalizing s with
  | nil => exact iff_of_true rfl trivial
  | cons a as ih =>
    rw [AllSteps, ← hC s a hs]
    cases hstep' : step s a with
    | none => simp [exec, hstep']
    | some t =>
      rw [exec_cons hstep', ih (hstep s a t hs hstep')]
      simp

/-- **The simulation rule.**  The abstract state follows the labels by a total
function `next`. -/
theorem exec_simulation {τ : Type*} {next : τ → α → τ} {R : σ → τ → Prop}
    (hstep : ∀ s m a t, R s m → C s a → step s a = some t → R t (next m a)) {m : τ} (hs : R s m)
    (hall : AllSteps step C s as) (hrun : exec step s as = some u) : R u (as.foldl next m) := by
  induction as generalizing s m with
  | nil =>
    obtain rfl := Option.some.inj hrun
    exact hs
  | cons a as ih =>
    obtain ⟨t, ht, hrest⟩ := exec_cons_inv hrun
    exact ih (hstep s m a t hs hall.1 ht) (hall.2 t ht) hrest

/-- **The progress rule.**  The simulation rule for steps that the relation and the side
condition enable: the run gets to its end. -/
theorem exec_progress {τ : Type*} {next : τ → α → τ} {R : σ → τ → Prop}
    (hstep : ∀ s m a, R s m → C s a → ∃ t, step s a = some t ∧ R t (next m a)) {m : τ}
    (hs : R s m) (hall : AllSteps step C s as) :
    ∃ u, exec step s as = some u ∧ R u (as.foldl next m) := by
  induction as generalizing s m with
  | nil => exact ⟨s, rfl, hs⟩
  | cons a as ih =>
    obtain ⟨t, ht, hR⟩ := hstep s m a hs hall.1
    obtain ⟨u, hu, hRu⟩ := ih hR (hall.2 t ht)
    exact ⟨u, by rw [exec_cons ht, hu], hRu⟩

/-- What `note` writes down along a run. -/
def record {τ : Type*} (step : σ → α → Option σ) (note : σ → α → τ → τ) : σ → τ → List α → τ
  | _, m, [] => m
  | s, m, a :: as =>
      match step s a with
      | some t => record step note t (note s a m) as
      | none => m

/-- **The record rule.** -/
theorem exec_record {τ : Type*} {note : σ → α → τ → τ} {R : σ → τ → Prop}
    (hstep : ∀ s m a t, R s m → C s a → step s a = some t → R t (note s a m)) {m : τ} (hs : R s m)
    (hall : AllSteps step C s as) (hrun : exec step s as = some u) :
    R u (record step note s m as) := by
  induction as generalizing s m with
  | nil =>
    obtain rfl := Option.some.inj hrun
    exact hs
  | cons a as ih =>
    obtain ⟨t, ht, hrest⟩ := exec_cons_inv hrun
    rw [record, ht]
    exact ih (hstep s m a t hs hall.1 ht) (hall.2 t ht) hrest

end Run
