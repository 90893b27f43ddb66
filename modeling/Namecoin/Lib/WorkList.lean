import Mathlib.Algebra.Group.Nat.Defs
import Mathlib.Order.Basic
import Mathlib.Tactic.Common

/-! # Work lists

A loop that takes jobs from the front of a list and puts the jobs they lead to at its end. A job may
also be put aside into a pool, which is part of the state, and later jobs may take it out again;
`Worker` carries the bound that makes this end: a job that is put aside leads to no other jobs, and
jobs that are taken out were in the pool.

* `drain`: the loop, with the first failure;
* `drain_induct`: what holds when the list is empty and is passed back through every
  turn, holds of every list;
* `Along`: every turn of the loop meets a condition, and `Along.invariant`: an invariant that turns
  keep under the condition holds at the end;
* `drain_failure_iff`: when the loop reports no failure;
* `Worker.ends`: the loop as it is written, turn by turn, ends, and `drain` is its result;
* `drain_lost`: if a failed job is not put aside, fewer jobs are left in the pool than
  there were jobs at all. -/

namespace Namecoin.Lib.WorkList

/-- What one job leaves behind: the state, the jobs it leads to, and a failure. -/
structure Outcome (σ α ε : Type) where
  state : σ
  jobs : List α
  failure : Option ε

/-- One turn of a loop, with the number of jobs that are put aside. A turn is given the
number of turns before it. -/
structure Worker (σ α ε : Type) where
  turn : ℕ → σ → α → Outcome σ α ε
  pool : σ → ℕ
  bounded : ∀ n s a, pool (turn n s a).state + (turn n s a).jobs.length ≤ pool s ∨
    (pool (turn n s a).state = pool s + 1 ∧ (turn n s a).jobs = [])

variable {σ α ε : Type} (w : Worker σ α ε)

/-- Run all jobs; the failure is that of the first job that failed. -/
def Worker.drain : ℕ → σ → List α → σ × Option ε
  | _, s, [] => (s, none)
  | n, s, a :: rest =>
    let o := w.turn n s a
    let r := drain (n + 1) o.state (rest ++ o.jobs)
    (r.1, o.failure.or r.2)
termination_by _ s jobs => (w.pool s + jobs.length, jobs.length)
decreasing_by
  rcases w.bounded n s a with h | ⟨h, hnil⟩
  · exact Prod.Lex.left _ _ (by rw [List.length_append, List.length_cons]; omega)
  · rw [h, hnil, List.append_nil, List.length_cons, Nat.add_assoc, Nat.add_comm 1]
    exact Prod.Lex.right _ (Nat.lt_succ_self _)

variable {w} {n : ℕ} {s : σ} {a : α} {rest jobs : List α}

theorem drain_nil : w.drain n s [] = (s, none) := by rw [Worker.drain]

theorem drain_cons : w.drain n s (a :: rest) =
    ((w.drain (n + 1) (w.turn n s a).state (rest ++ (w.turn n s a).jobs)).1,
      (w.turn n s a).failure.or
        (w.drain (n + 1) (w.turn n s a).state (rest ++ (w.turn n s a).jobs)).2) := by
  rw [Worker.drain]

/-- **Induction over the turns of the loop**, from its end. -/
theorem drain_induct {P : ℕ → σ → List α → Prop} (hnil : ∀ n s, P n s [])
    (hcons : ∀ n s a rest, P (n + 1) (w.turn n s a).state (rest ++ (w.turn n s a).jobs) →
    P n s (a :: rest)) :
    ∀ n s jobs, P n s jobs := by
  intro n s jobs
  induction n, s, jobs using Worker.drain.induct (w := w) with
  | case1 n s => exact hnil n s
  | case2 n s a rest _ ih => exact hcons n s a rest ih

/-- Every turn of the loop meets the condition `C`. -/
inductive Along (w : Worker σ α ε) (C : ℕ → σ → α → Prop) : ℕ → σ → List α → Prop
  | nil (n : ℕ) (s : σ) : Along w C n s []
  | cons {n : ℕ} {s : σ} {a : α} {rest : List α} : C n s a →
    Along w C (n + 1) (w.turn n s a).state (rest ++ (w.turn n s a).jobs) → Along w C n s (a :: rest)

theorem Along.trivial : ∀ (n : ℕ) (s : σ) (jobs : List α), Along w (fun _ _ _ => True) n s jobs :=
  drain_induct .nil fun _ _ _ _ ih => .cons True.intro ih

/-- **An invariant of the turns** holds at the end of the loop. -/
theorem Along.invariant {C : ℕ → σ → α → Prop} {I : σ → List α → Prop} (h : Along w C n s jobs)
    (hturn : ∀ n s a rest, C n s a → I s (a :: rest) →
    I (w.turn n s a).state (rest ++ (w.turn n s a).jobs)) (hI :
    I s jobs) : I (w.drain n s jobs).1 [] := by
  induction h with
  | nil n s => rwa [drain_nil]
  | cons hC _ ih =>
    rw [drain_cons]
    exact ih (hturn _ _ _ _ hC hI)

/-- The loop reports a failure exactly if one of its turns does. -/
theorem drain_failure_iff : ∀ (n : ℕ) (s : σ) (jobs : List α), (w.drain n s jobs).2 = none ↔
    Along w (fun n s a => (w.turn n s a).failure = none) n s jobs := by
  refine drain_induct (w := w) (fun n s => ?_) fun n s a rest ih => ?_
  · rw [drain_nil]
    exact iff_of_true rfl (.nil n s)
  · rw [drain_cons, Option.or_eq_none_iff, ih]
    constructor
    · rintro ⟨hturn, hrest⟩
      exact .cons hturn hrest
    · rintro (_ | ⟨hturn, hrest⟩)
      exact ⟨hturn, hrest⟩

theorem drain_pool : ∀ (n : ℕ) (s : σ) (jobs : List α), w.pool (w.drain n s jobs).1 ≤
      w.pool s + jobs.length := by
  refine drain_induct (w := w) (fun n s => ?_) fun n s a rest ih => ?_
  · rw [drain_nil]
    exact Nat.le_add_right _ _
  · rw [drain_cons, List.length_cons]
    rw [List.length_append] at ih
    refine Nat.le_trans ih ?_
    rcases w.bounded n s a with h | ⟨h, hnil⟩
    · omega
    · rw [h, hnil, List.length_nil]
      omega

/-! ### The number of turns -/

/-- The variables of the loop, with the number of turns it has made. -/
structure Loop (σ α ε : Type) where
  turns : ℕ
  state : σ
  jobs : List α
  failure : Option ε

/-- The next turn of the loop, which ends when no job is left. -/
def Worker.next (w : Worker σ α ε) (l : Loop σ α ε) : Option (Loop σ α ε) :=
  match l.jobs with
  | [] => none
  | a :: rest =>
    let o := w.turn l.turns l.state a
    some ⟨l.turns + 1, o.state, rest ++ o.jobs, l.failure.or o.failure⟩

/-- The loop after some more turns. -/
def Worker.after (w : Worker σ α ε) : ℕ → Loop σ α ε → Option (Loop σ α ε)
  | 0, l => some l
  | k + 1, l => (w.next l).bind (w.after k)

theorem turns_bound {pool pool' rest jobs k : ℕ} (hk : k ≤ (pool' + (rest + jobs)) ^ 2 + (rest + jobs))
    (h : pool' + jobs ≤ pool ∨ (pool' = pool + 1 ∧ jobs = 0)) :
    k + 1 ≤ (pool + (rest + 1)) ^ 2 + (rest + 1) := by
  rcases h with h | ⟨rfl, rfl⟩
  · have hsquare : (pool' + (rest + jobs)) ^ 2 ≤ (pool + rest) ^ 2 := Nat.pow_le_pow_left (by omega) 2
    have hnext : (pool + (rest + 1)) ^ 2 = (pool + rest) ^ 2 + 2 * (pool + rest) + 1 := by
      rw [← Nat.add_assoc, Nat.pow_two, Nat.pow_two]
      simp only [Nat.add_mul, Nat.mul_add]
      omega
    omega
  · rw [show pool + 1 + (rest + 0) = pool + (rest + 1) by omega] at hk
    omega

/-- **The loop ends**, after a number of turns that is bounded by the jobs it has and those
that have been put aside. -/
theorem Worker.ends : ∀ (n : ℕ) (s : σ) (jobs : List α) (f : Option ε),
    ∃ k ≤ (w.pool s + jobs.length) ^ 2 + jobs.length,
      w.after k ⟨n, s, jobs, f⟩ = some ⟨n + k, (w.drain n s jobs).1, [], f.or (w.drain n s jobs).2⟩ := by
  refine drain_induct (w := w) (fun n s f => ⟨0, Nat.zero_le _, ?_⟩) fun n s a rest ih f => ?_
  · rw [drain_nil, Option.or_none]
    rfl
  · obtain ⟨k, hk, hafter⟩ := ih (f.or (w.turn n s a).failure)
    rw [List.length_append] at hk
    refine ⟨k + 1, turns_bound hk ((w.bounded n s a).imp id fun h => ⟨h.1, by rw [h.2]; rfl⟩), ?_⟩
    refine hafter.trans ?_
    rw [drain_cons, Option.or_assoc, Nat.add_assoc, Nat.add_comm 1 k]

/-- **A failed job is lost** if it is not put aside. -/
theorem drain_lost (hfail : ∀ n s a, (w.turn n s a).failure ≠ none →
    w.pool (w.turn n s a).state + (w.turn n s a).jobs.length ≤ w.pool s) : ∀ (n : ℕ) (s : σ)
      (jobs : List α),
    (w.drain n s jobs).2 ≠ none → w.pool (w.drain n s jobs).1 < w.pool s + jobs.length := by
  refine drain_induct (w := w) (fun n s h => ?_) fun n s a rest ih h => ?_
  · rw [drain_nil] at h
    exact absurd rfl h
  · rw [drain_cons] at h ⊢
    rw [List.length_append] at ih
    rw [List.length_cons]
    cases hf : (w.turn n s a).failure with
    | some e =>
      have hturn := hfail n s a (by rw [hf]; exact Option.some_ne_none e)
      have hrest := drain_pool (w := w) (n + 1) (w.turn n s a).state (rest ++ (w.turn n s a).jobs)
      rw [List.length_append] at hrest
      exact Nat.lt_of_le_of_lt hrest (by omega)
    | none =>
      rw [hf] at h
      refine Nat.lt_of_lt_of_le (ih h) ?_
      rcases w.bounded n s a with hb | ⟨hb, hnil⟩
      · omega
      · rw [hb, hnil, List.length_nil]
        omega

end Namecoin.Lib.WorkList
