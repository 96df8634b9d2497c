/-
HedgeDB/Interleave.lean

Threads over a shared state.

A system has threads with a local state each and one shared state.  An atomic
action of a thread reads and writes the shared state and its own local one;
background actions touch the shared state only.  Every interleaving is a run of
`System.step` in the sense of `Run`.

`exec_holds` is the rule for invariants of the form "the shared state is good
and every thread is where it may be": an action has to keep the shared part, its
own thread's assertion, and the assertions of the others against its changes.
-/
import HedgeDB.Run
import Mathlib.Data.Fintype.Basic

namespace Interleave

open Function

structure State (ι G L : Type*) where
  shared : G
  threads : ι → L

/-- What happens next: an action of one thread, or a background action. -/
inductive Label (ι α β : Type*)
  | thread (t : ι) (a : α)
  | background (b : β)

structure System (ι G L α β : Type*) where
  act : ι → α → G → L → Option (G × L)
  background : β → G → Option G

variable {ι G L α β : Type*} [DecidableEq ι]

def System.step (M : System ι G L α β) (s : State ι G L) : Label ι α β → Option (State ι G L)
  | .thread t a =>
      (M.act t a s.shared (s.threads t)).map fun r => ⟨r.1, update s.threads t r.2⟩
  | .background b => (M.background b s.shared).map fun g => ⟨g, s.threads⟩

variable {M : System ι G L α β} {s' s : State ι G L}

theorem step_thread {t : ι} {a : α} (h : M.step s (.thread t a) = some s') :
    ∃ g l, M.act t a s.shared (s.threads t) = some (g, l) ∧
      s' = ⟨g, update s.threads t l⟩ := by
  obtain ⟨⟨g, l⟩, hact, rfl⟩ := Option.map_eq_some_iff.mp h
  exact ⟨g, l, hact, rfl⟩

theorem step_background {b : β} (h : M.step s (.background b) = some s') :
    ∃ g, M.background b s.shared = some g ∧ s' = ⟨g, s.threads⟩ := by
  obtain ⟨g, hbg, rfl⟩ := Option.map_eq_some_iff.mp h
  exact ⟨g, hbg, rfl⟩

theorem exec_thread (t : ι) (as : List α) (g : G) (threads : ι → L) :
    Run.exec M.step ⟨g, threads⟩ (as.map (.thread t)) =
      (Run.exec (fun r a => M.act t a r.1 r.2) (g, threads t) as).map fun r =>
        ⟨r.1, update threads t r.2⟩ := by
  induction as generalizing g threads with
  | nil => simp [Run.exec]
  | cons a as ih =>
    simp only [List.map_cons, Run.exec, System.step]
    rcases M.act t a g (threads t) with - | ⟨g', l⟩
    · rfl
    · simp only [Option.map_some, Option.bind_some, ih, update_self, update_idem]

/-- The shared state meets `J` and every thread its assertion `A`. -/
structure Holds (J : G → Prop) (A : ι → G → L → Prop) (s : State ι G L) : Prop where
  shared : J s.shared
  threads : ∀ t, A t s.shared (s.threads t)

variable {J : G → Prop} {A : ι → G → L → Prop} {C : State ι G L → Label ι α β → Prop}
  (hact : ∀ s t a g l, Holds J A s → C s (.thread t a) →
    M.act t a s.shared (s.threads t) = some (g, l) →
    J g ∧ A t g l ∧ ∀ u, u ≠ t → A u g (s.threads u))
  (hbackground : ∀ s b g, Holds J A s → C s (.background b) →
    M.background b s.shared = some g → J g ∧ ∀ u, A u g (s.threads u))

include hact hbackground

theorem Holds.step {a : Label ι α β}
    (h : Holds J A s) (hc : C s a) (hstep : M.step s a = some s') : Holds J A s' := by
  cases a with
  | thread t a =>
    obtain ⟨g, l, hg, rfl⟩ := step_thread hstep
    obtain ⟨hJ, hown, hothers⟩ := hact s t a g l h hc hg
    refine ⟨hJ, fun u => ?_⟩
    show A u g (update s.threads t l u)
    by_cases hu : u = t
    · subst hu
      rwa [update_self]
    · rw [update_of_ne hu]
      exact hothers u hu
  | background b =>
    obtain ⟨g, hg, rfl⟩ := step_background hstep
    obtain ⟨hJ, hothers⟩ := hbackground s b g h hc hg
    exact ⟨hJ, hothers⟩

/-- **The interleaving rule**: what holds at the start and is kept by every action
holds after every run. -/
theorem exec_holds {as : List (Label ι α β)}
    (h : Holds J A s) (hall : Run.AllSteps M.step C s as) (hrun : Run.exec M.step s as = some s') :
    Holds J A s' :=
  Run.exec_invariant (fun _ _ _ hs hc hst => hs.step hact hbackground hc hst) h hall hrun

end Interleave
