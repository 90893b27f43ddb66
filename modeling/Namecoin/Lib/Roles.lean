import Mathlib.Algebra.BigOperators.Group.Multiset.Basic
import Mathlib.Algebra.Order.BigOperators.Group.Multiset
import Mathlib.Algebra.Order.Group.Nat
import Namecoin.Lib.Threads

/-! # Roles of threads

A thread plays a role when what it still has to do fits that role. Where every stack fits a role,
the threads of a pool can be replaced by their roles: a turn of the pool then replaces one role and
adds those of new threads.

* `Plays`: the roles that the threads of a pool play, one for each thread;
* `Plays.run`, `Plays.spawn`: what a turn and a new thread do to the roles;
* `total`: how much the roles count for. -/

namespace Namecoin.Lib.Roles

open Lib.Threads

variable {σ τ ρ : Type} {Fits : ρ → List τ → Prop} {p p' : Pool σ τ} {roles : Multiset ρ}

/-- The threads of the pool play these roles. -/
def Plays (Fits : ρ → List τ → Prop) (p : Pool σ τ) (roles : Multiset ρ) : Prop :=
  ∃ rs : List ρ, List.Forall₂ Fits rs p.threads ∧ roles = rs

theorem forall₂_set : ∀ {rs : List ρ} {threads : List (List τ)} {t : ℕ} {stack : List τ},
    List.Forall₂ Fits rs threads → threads[t]? = some stack →
    ∃ (r : ρ) (others : Multiset ρ), Fits r stack ∧ (rs : Multiset ρ) = r ::ₘ others ∧
      ∀ (r' : ρ) (stack' : List τ), Fits r' stack' →
      ∃ rs' : List ρ, List.Forall₂ Fits rs' (threads.set t stack') ∧
        (rs' : Multiset ρ) = r' ::ₘ others
  | _, _, t, _, .nil, ht => by simp at ht
  | r :: rs, s :: threads, 0, stack, .cons hfits hrest, ht => by
    cases ht
    exact ⟨r, rs, hfits, rfl, fun r' stack' h' => ⟨r' :: rs, .cons h' hrest, rfl⟩⟩
  | r :: rs, s :: threads, t + 1, stack, .cons hfits hrest, ht => by
    obtain ⟨r₁, others, hr₁, hroles, hset⟩ := forall₂_set hrest ht
    refine ⟨r₁, r ::ₘ others, hr₁, ?_, fun r' stack' h' => ?_⟩
    · rw [Multiset.cons_swap, ← hroles, Multiset.cons_coe]
    · obtain ⟨rs', hrs', hroles'⟩ := hset r' stack' h'
      refine ⟨r :: rs', .cons hfits hrs', ?_⟩
      rw [Multiset.cons_swap, ← hroles', Multiset.cons_coe]

/-- **A turn replaces one role** and adds the roles of the threads it starts. -/
theorem Plays.run {f : σ → τ → Option (Effect σ τ)} {t : ℕ} (h : Plays Fits p roles)
    (hrun : p.run f t = some p') :
    ∃ (r : ρ) (j : τ) (rest : List τ) (e : Effect σ τ) (others : Multiset ρ), p.top t = some j ∧
    Fits r (j :: rest) ∧
      f p.shared j = some e ∧ p'.shared = e.shared ∧ roles = r ::ₘ others ∧
        ∀ (r' : ρ) (new : List ρ), Fits r' (e.next ++ rest) → List.Forall₂ Fits new e.spawned →
          Plays Fits p' (r' ::ₘ (new + others)) := by
  obtain ⟨rs, hfits, rfl⟩ := h
  obtain ⟨j, rest, e, ht, he, rfl⟩ := run_eq_some.mp hrun
  obtain ⟨r, others, hr, hroles, hset⟩ := forall₂_set hfits ht
  refine ⟨r, j, rest, e, others, top_eq_some.mpr ⟨rest, ht⟩, hr, he, rfl, hroles,
    fun r' new hr' hnew => ?_⟩
  obtain ⟨rs', hrs', hroles'⟩ := hset r' _ hr'
  refine ⟨rs' ++ new, List.rel_append hrs' hnew, ?_⟩
  rw [← Multiset.coe_add, hroles', Multiset.cons_add, add_comm others]

theorem Plays.spawn {r : ρ} {js : List τ} (h : Plays Fits p roles) (hr : Fits r js) :
    Plays Fits (p.spawn js) (r ::ₘ roles) := by
  obtain ⟨rs, hfits, rfl⟩ := h
  refine ⟨rs ++ [r], List.rel_append hfits (.cons hr .nil), ?_⟩
  rw [← Multiset.coe_add, Multiset.coe_singleton, add_comm, Multiset.singleton_add]

theorem Plays.exists_thread {r : ρ} (h : Plays Fits p roles) (hr : r ∈ roles) :
    ∃ stack ∈ p.threads, Fits r stack := by
  obtain ⟨rs, hfits, rfl⟩ := h
  obtain ⟨i, hi, rfl⟩ := List.mem_iff_getElem.mp (Multiset.mem_coe.mp hr)
  have hlt : i < p.threads.length := hfits.length_eq ▸ hi
  exact ⟨_, List.getElem_mem hlt, List.Forall₂.get hfits hi hlt⟩

theorem Plays.exists_role {stack : List τ} (h : Plays Fits p roles) (hs : stack ∈ p.threads) :
    ∃ r ∈ roles, Fits r stack := by
  obtain ⟨rs, hfits, rfl⟩ := h
  obtain ⟨i, hi, rfl⟩ := List.mem_iff_getElem.mp hs
  have hlt : i < rs.length := hfits.length_eq ▸ hi
  exact ⟨_, Multiset.mem_coe.mpr (List.getElem_mem hlt), List.Forall₂.get hfits hlt hi⟩

theorem plays_nil (s : σ) : Plays Fits ⟨s, []⟩ 0 := ⟨[], .nil, rfl⟩

/-! ### Counting roles -/

/-- The sum of what the roles count for. -/
def total (count : ρ → ℕ) (roles : Multiset ρ) : ℕ := (roles.map count).sum

section total

variable {count : ρ → ℕ} {r : ρ}

@[simp] theorem total_zero : total count 0 = 0 := rfl

@[simp] theorem total_cons : total count (r ::ₘ roles) = count r + total count roles := by
  simp [total]

theorem count_le_total (count : ρ → ℕ) (h : r ∈ roles) : count r ≤ total count roles := by
  obtain ⟨others, rfl⟩ := Multiset.exists_cons_of_mem h
  rw [total_cons]
  exact Nat.le_add_right _ _

theorem Plays.total_eq {kind : List τ → Bool} (h : Plays Fits p roles)
    (hkind : ∀ r stack, Fits r stack → count r = if kind stack then 1 else 0) :
    total count roles = p.threads.countP kind := by
  obtain ⟨rs, hfits, rfl⟩ := h
  have hall : ∀ {rs : List ρ} {threads : List (List τ)}, List.Forall₂ Fits rs threads →
      total count (rs : Multiset ρ) = threads.countP kind := fun hfits => by
    induction hfits with
    | nil => rfl
    | cons hr _ ih => rw [← Multiset.cons_coe, total_cons, List.countP_cons, ih, hkind _ _ hr, add_comm]
  exact hall hfits

theorem total_eq_zero : total count roles = 0 ↔ ∀ r ∈ roles, count r = 0 := by
  rw [total, Multiset.sum_eq_zero_iff]
  simp

end total

end Namecoin.Lib.Roles
