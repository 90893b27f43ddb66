import Mathlib.Logic.Relation
import Mathlib.Tactic.Common

/-! # Step systems

States that are reached by taking one action at a time, where an action that is
not possible has no result.

* `System.Reach`: the states reached by steps that meet a condition on the state before them;
* `System.Reach.invariant`: what holds at the start and is kept by such steps
  holds in every state reached;
* `System.Goes`: the states reached from a given state by such steps. -/

namespace Namecoin.Lib.Systems

/-- A system that takes one action at a time. -/
structure System (σ α : Type) where
  start : σ → Prop
  step : σ → α → Option σ

variable {σ α : Type} (M : System σ α)

/-- Take several actions. -/
def System.run : σ → List α → Option σ
  | s, [] => some s
  | s, a :: as => (M.step s a).bind fun s' => run s' as

/-- The states reached by steps that meet the condition `C`. -/
inductive System.Reach (C : σ → α → Prop) : σ → Prop
  | start {s : σ} : M.start s → Reach C s
  | step {s s' : σ} {a : α} : Reach C s → C s a → M.step s a = some s' → Reach C s'

/-- Take several actions, as long as they meet the condition. -/
def System.runOn (C : σ → α → Prop) [∀ s a, Decidable (C s a)] : σ → List α → Option σ
  | s, [] => some s
  | s, a :: as => if C s a then (M.step s a).bind fun s' => runOn C s' as else none

/-- The states reached from a state by steps that meet the condition `C`. -/
def System.Goes (C : σ → α → Prop) : σ → σ → Prop :=
  Relation.ReflTransGen fun s s' => ∃ a, C s a ∧ M.step s a = some s'

variable {M} {C : σ → α → Prop} {s s' : σ} {a : α} {as : List α}

theorem run_cons : M.run s (a :: as) = some s' ↔ ∃ s₁, M.step s a = some s₁ ∧ M.run s₁ as = some s' :=
  Option.bind_eq_some_iff

/-- **An invariant of the steps** holds in every state reached. -/
theorem System.Reach.invariant {I : σ → Prop} (h : M.Reach C s) (hstart : ∀ s, M.start s → I s)
    (hstep : ∀ s a s', C s a → M.step s a = some s' → I s → I s') : I s := by
  induction h with
  | start hs => exact hstart _ hs
  | step _ hC hs ih => exact hstep _ _ _ hC hs ih

theorem run_invariant {I : σ → Prop} {P : α → Prop}
    (hstep : ∀ s a s', P a → M.step s a = some s' → I s → I s') :
    ∀ {as : List α} {s s' : σ}, (∀ a ∈ as, P a) → M.run s as = some s' → I s → I s'
  | [], _, _, _, h, hI => by
    cases h
    exact hI
  | a :: as, s, s', hP, h, hI => by
    obtain ⟨s₁, h₁, hrest⟩ := run_cons.mp h
    exact run_invariant hstep (fun b hb => hP b (List.mem_cons_of_mem _ hb)) hrest
      (hstep _ _ _ (hP a List.mem_cons_self) h₁ hI)

theorem System.Reach.run : ∀ {as : List α} {s s' : σ}, M.Reach C s → (∀ a ∈ as, ∀ s, C s a) →
    M.run s as = some s' → M.Reach C s'
  | [], _, _, h, _, hrun => by
    cases hrun
    exact h
  | a :: _, s, _, h, hC, hrun => by
    obtain ⟨s₁, h₁, hrest⟩ := run_cons.mp hrun
    exact System.Reach.run (.step h (hC a List.mem_cons_self s) h₁)
      (fun b hb => hC b (List.mem_cons_of_mem _ hb)) hrest

theorem System.Reach.runOn [∀ s a, Decidable (C s a)] : ∀ {as : List α} {s s' : σ}, M.Reach C s →
    M.runOn C s as = some s' → M.Reach C s'
  | [], _, _, h, hrun => by
    cases hrun
    exact h
  | a :: as, s, s', h, hrun => by
    unfold System.runOn at hrun
    split_ifs at hrun with hC
    obtain ⟨s₁, h₁, hrest⟩ := Option.bind_eq_some_iff.mp hrun
    exact System.Reach.runOn (h.step hC h₁) hrest

theorem System.Reach.goes (h : M.Reach C s) (hgo : M.Goes C s s') : M.Reach C s' := by
  induction hgo with
  | refl => exact h
  | tail _ hs ih =>
    obtain ⟨a, hC, ha⟩ := hs
    exact ih.step hC ha

end Namecoin.Lib.Systems
