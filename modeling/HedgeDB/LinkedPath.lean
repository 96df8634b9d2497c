/-
HedgeDB/LinkedPath.lean

Singly linked lists in a memory.

`next a` is where the link of node `a` leads, if anywhere.  `Path next l` says that the
links lead through the nodes of `l` in order and end at its last; `Path.insert` is the
one change a writer makes: a new node takes over the link of its predecessor, which is
then led to the new node.  `walk` follows the links.
-/
import Mathlib.Data.List.Basic

namespace LinkedPath

variable {α : Type*} {next next' : α → Option α} {a p n : α} {l l₁ l₂ : List α}

/-- The links lead through `l`. -/
def Path (next : α → Option α) : List α → Prop
  | [] => True
  | a :: l => next a = l.head? ∧ Path next l

/-- The nodes after `a`, at most `fuel` of them. -/
def walk (next : α → Option α) : ℕ → α → List α
  | 0, _ => []
  | fuel + 1, a =>
    match next a with
    | none => []
    | some b => b :: walk next fuel b

theorem Path.walk_eq (h : Path next (a :: l)) {fuel : ℕ} (hfuel : l.length ≤ fuel) :
    walk next fuel a = l := by
  induction l generalizing a fuel with
  | nil =>
    cases fuel with
    | zero => rfl
    | succ fuel => simp only [walk, h.1, List.head?_nil]
  | cons b l ih =>
    cases fuel with
    | zero => exact absurd hfuel (Nat.not_succ_le_zero _)
    | succ fuel =>
      simp only [walk, h.1, List.head?_cons]
      rw [ih h.2 (Nat.le_of_succ_le_succ hfuel)]

theorem Path.congr (h : Path next l) (hsame : ∀ b ∈ l, next' b = next b) : Path next' l := by
  induction l with
  | nil => trivial
  | cons b l ih =>
    refine ⟨(hsame b List.mem_cons_self).trans h.1, ih h.2 fun c hc => ?_⟩
    exact hsame c (List.mem_cons_of_mem b hc)

theorem Path.next_eq (h : Path next (l₁ ++ p :: l₂)) : next p = l₂.head? := by
  induction l₁ with
  | nil => exact h.1
  | cons b l₁ ih => exact ih h.2

/-- **A new node after `p`.** -/
theorem Path.insert (h : Path next (l₁ ++ p :: l₂)) (hnodup : (l₁ ++ p :: l₂).Nodup)
    (hnew : n ∉ l₁ ++ p :: l₂) (hp : next' p = some n) (hn : next' n = next p)
    (hsame : ∀ b, b ≠ p → b ≠ n → next' b = next b) : Path next' (l₁ ++ p :: n :: l₂) := by
  induction l₁ with
  | nil =>
    obtain ⟨hp₂, -⟩ := List.nodup_cons.mp hnodup
    refine ⟨hp, hn.trans h.1, h.2.congr fun b hb => hsame b ?_ ?_⟩
    · exact fun heq => hp₂ (heq ▸ hb)
    · exact fun heq => hnew (heq ▸ List.mem_cons_of_mem p hb)
  | cons b l₁ ih =>
    obtain ⟨hb, hnodup'⟩ := List.nodup_cons.mp hnodup
    obtain ⟨hbn, hnew'⟩ := not_or.mp (mt List.mem_cons.mpr hnew)
    refine ⟨?_, ih h.2 hnodup' hnew'⟩
    rw [hsame b (fun heq => hb (by simp [heq])) (Ne.symm hbn), h.1]
    cases l₁ <;> rfl

end LinkedPath
