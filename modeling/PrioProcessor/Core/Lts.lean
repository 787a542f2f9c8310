import Mathlib.Order.WellFounded
import Mathlib.Data.Prod.Lex

/-!
# Labelled transition systems

`LTS S L`: initial states and a labelled step relation. `Run` is a finite
run, `Reachable` the states some run from an initial state ends in.

* `Inductive.reachable`: a property that holds initially and that every step
  preserves holds in every reachable state.
* `Run.preserves`: the same along a run from any state that has it.
* `guard`: the system in which only the steps allowed by a predicate on the
  state before the step and the label are taken; its runs are runs of the
  original system (`Run.of_guard`).
* `reaches_goal`: when every state of an invariant that is not yet a goal has
  a step that keeps the invariant and lowers a rank, every such state has a
  run to a goal.
-/
namespace PrioProcessor

structure LTS (S L : Type) where
  init : S → Prop
  step : S → L → S → Prop

namespace LTS

variable {S L : Type} {M : LTS S L}

inductive Run (M : LTS S L) : S → List L → S → Prop
  | nil (s : S) : Run M s [] s
  | cons {s s' t : S} {l : L} {ls : List L} : M.step s l s' → Run M s' ls t → Run M s (l :: ls) t

def Reachable (M : LTS S L) (s : S) : Prop := ∃ s₀ ls, M.init s₀ ∧ M.Run s₀ ls s

/-- Holds initially and is kept by every step. -/
structure Inductive (M : LTS S L) (P : S → Prop) : Prop where
  init : ∀ s, M.init s → P s
  step : ∀ s l s', P s → M.step s l s' → P s'

theorem Run.preserves {P : S → Prop} (hP : ∀ s l s', P s → M.step s l s' → P s') {s t : S}
    {ls : List L} (hr : M.Run s ls t) : P s → P t := by
  induction hr with
  | nil s => exact id
  | cons hst _ ih => exact fun hs => ih (hP _ _ _ hs hst)

theorem Run.append {s t u : S} {ls ls' : List L} (h : M.Run s ls t) (h' : M.Run t ls' u) :
    M.Run s (ls ++ ls') u := by
  induction h with
  | nil _ => exact h'
  | cons hst _ ih => exact .cons hst (ih h')

theorem reachable_init {s : S} (h : M.init s) : M.Reachable s := ⟨s, [], h, .nil s⟩

theorem Reachable.run {s t : S} {ls : List L} (h : M.Reachable s) (hr : M.Run s ls t) :
    M.Reachable t := by
  obtain ⟨s₀, ls₀, h₀, h₁⟩ := h
  exact ⟨s₀, ls₀ ++ ls, h₀, h₁.append hr⟩

theorem Reachable.step {s t : S} {l : L} (h : M.Reachable s) (hs : M.step s l t) :
    M.Reachable t := h.run (.cons hs (.nil t))

theorem Inductive.reachable {P : S → Prop} (h : M.Inductive P) (s : S) (hr : M.Reachable s) :
    P s := by
  obtain ⟨s₀, ls, h₀, hrun⟩ := hr
  exact hrun.preserves h.step (h.init s₀ h₀)

/-! ## Restricting the steps -/

/-- Only the steps whose label `G` allows in the state before them. -/
def guard (M : LTS S L) (G : S → L → Prop) : LTS S L where
  init := M.init
  step s l s' := M.step s l s' ∧ G s l

theorem Run.of_guard {G : S → L → Prop} {s t : S} {ls : List L} (h : (M.guard G).Run s ls t) :
    M.Run s ls t := by
  induction h with
  | nil s => exact .nil s
  | cons hst _ ih => exact .cons hst.1 ih

theorem Reachable.of_guard {G : S → L → Prop} {s : S} (h : (M.guard G).Reachable s) :
    M.Reachable s := by
  obtain ⟨s₀, ls, h₀, hr⟩ := h
  exact ⟨s₀, ls, h₀, hr.of_guard⟩

/-! ## Functional steps -/

/-- The system of a partial step function. -/
def ofFn (init : S → Prop) (f : S → L → Option S) : LTS S L where
  init := init
  step s l s' := f s l = some s'

/-- Follow a list of labels. -/
def exec (f : S → L → Option S) : S → List L → Option S
  | s, [] => some s
  | s, l :: ls => (f s l).bind fun s' => exec f s' ls

theorem run_of_exec {init : S → Prop} {f : S → L → Option S} :
    ∀ {s t : S} (ls : List L), exec f s ls = some t → (ofFn init f).Run s ls t
  | s, t, [], h => by
    simp only [exec, Option.some.injEq] at h
    subst h; exact .nil s
  | s, t, l :: ls, h => by
    simp only [exec, Option.bind_eq_some_iff] at h
    obtain ⟨s', h₁, h₂⟩ := h
    exact .cons h₁ (run_of_exec ls h₂)

/-- Follow a list of labels, each allowed by `G` where it is taken. -/
theorem guard_run_of_exec {init : S → Prop} {f : S → L → Option S} {G : S → L → Bool} :
    ∀ {s t : S} (ls : List L), exec (fun s l => if G s l then f s l else none) s ls = some t →
      ((ofFn init f).guard fun s l => G s l = true).Run s ls t
  | s, t, [], h => by
    simp only [exec, Option.some.injEq] at h
    subst h; exact .nil s
  | s, t, l :: ls, h => by
    simp only [exec, Option.bind_eq_some_iff] at h
    obtain ⟨s', h₁, h₂⟩ := h
    by_cases hg : G s l = true
    · rw [if_pos hg] at h₁
      exact .cons ⟨h₁, hg⟩ (guard_run_of_exec ls h₂)
    · rw [if_neg hg] at h₁; cases h₁

/-! ## Runs to a goal -/

/-- A rank in a well-founded order that some step lowers, in every state of
`P` outside `Goal`, leads every state of `P` to `Goal`. -/
theorem reaches_goal {α : Type} [LT α] [WellFoundedLT α] (rank : S → α) (P Goal : S → Prop)
    (hstep : ∀ s, P s → ¬ Goal s → ∃ l s', M.step s l s' ∧ P s' ∧ rank s' < rank s) (s : S)
    (hs : P s) : ∃ ls t, M.Run s ls t ∧ P t ∧ Goal t := by
  induction hr : rank s using WellFoundedLT.induction generalizing s with
  | ind r ih =>
    by_cases hg : Goal s
    · exact ⟨[], s, .nil s, hs, hg⟩
    · obtain ⟨l, s', hst, hs', hlt⟩ := hstep s hs hg
      obtain ⟨ls, t, hrun, ht, htg⟩ := ih (rank s') (hr ▸ hlt) s' hs' rfl
      exact ⟨l :: ls, t, .cons hst hrun, ht, htg⟩

end LTS

end PrioProcessor
