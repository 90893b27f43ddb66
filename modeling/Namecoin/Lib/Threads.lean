import Mathlib.Algebra.Order.Group.Multiset
import Mathlib.Tactic.Abel

/-! # Threads

Threads that share a state and take turns. What a thread still has to do is a stack of tasks; a turn of
a thread runs the task on top, which changes the shared state, puts the tasks it leads to on top of the
same stack, and starts new threads. A task that has to wait has no effect.

* `Pool.run`, `Pool.push`, `Pool.spawn`: a turn, new tasks for an idle thread, and a new thread;
* `run_tasks`: what a turn does to the tasks that are pending in all threads together, and
  `Pool.those`: those of a kind;
* `Pool.OnTop`: tasks of a kind are on top of their stacks, and `OnTop.run`: a turn keeps it so;
* `run_of_top`: a turn of a thread leaves the tops of the other threads as they are. -/

namespace Namecoin.Lib.Threads

/-- Threads and the state they share. -/
structure Pool (σ τ : Type) where
  shared : σ
  threads : List (List τ)

/-- What a task leaves behind: the shared state, the tasks of the same thread that
come next, and new threads. -/
structure Effect (σ τ : Type) where
  shared : σ
  next : List τ
  spawned : List (List τ)

variable {σ τ : Type} {p p' : Pool σ τ} {t : ℕ} {j : τ}

/-- The tasks that are pending in all threads. -/
def Pool.tasks (p : Pool σ τ) : Multiset τ := (p.threads.flatten : Multiset τ)

/-- A turn of a thread. -/
def Pool.run (f : σ → τ → Option (Effect σ τ)) (p : Pool σ τ) (t : ℕ) : Option (Pool σ τ) :=
  match p.threads[t]? with
  | some (j :: rest) =>
    (f p.shared j).map fun e => ⟨e.shared, p.threads.set t (e.next ++ rest) ++ e.spawned⟩
  | _ => none

/-- New tasks for a thread that is idle. -/
def Pool.push (p : Pool σ τ) (t : ℕ) (js : List τ) : Option (Pool σ τ) :=
  match p.threads[t]? with
  | some [] => some { p with threads := p.threads.set t js }
  | _ => none

/-- A new thread. -/
def Pool.spawn (p : Pool σ τ) (js : List τ) : Pool σ τ := { p with threads := p.threads ++ [js] }

/-- The task on top of a thread. -/
def Pool.top (p : Pool σ τ) (t : ℕ) : Option τ := p.threads[t]?.bind List.head?

theorem top_eq_some : p.top t = some j ↔ ∃ rest, p.threads[t]? = some (j :: rest) := by
  unfold Pool.top
  rw [Option.bind_eq_some_iff]
  constructor
  · rintro ⟨stack, ht, hj⟩
    obtain ⟨rest, rfl⟩ := List.head?_eq_some_iff.mp hj
    exact ⟨rest, ht⟩
  · rintro ⟨rest, ht⟩
    exact ⟨_, ht, rfl⟩

/-! ### The pending tasks -/

theorem mem_tasks_of_top (h : p.top t = some j) : j ∈ p.tasks := by
  obtain ⟨rest, ht⟩ := top_eq_some.mp h
  exact Multiset.mem_coe.mpr (List.mem_flatten.mpr ⟨_, List.mem_of_getElem? ht, List.mem_cons_self⟩)

variable {f : σ → τ → Option (Effect σ τ)} {js : List τ}

theorem run_eq_some : p.run f t = some p' ↔ ∃ j rest e, p.threads[t]? = some (j :: rest) ∧
    f p.shared j = some e ∧ p' = ⟨e.shared, p.threads.set t (e.next ++ rest) ++ e.spawned⟩ := by
  unfold Pool.run
  constructor
  · intro h
    split at h
    · next j rest ht =>
      obtain ⟨e, he, rfl⟩ := Option.map_eq_some_iff.mp h
      exact ⟨j, rest, e, ht, he, rfl⟩
    · cases h
  · rintro ⟨j, rest, e, ht, he, rfl⟩
    rw [ht]
    exact Option.map_eq_some_iff.mpr ⟨e, he, rfl⟩

theorem push_eq_some : p.push t js = some p' ↔ p.threads[t]? = some [] ∧
    p' = { p with threads := p.threads.set t js } := by
  unfold Pool.push
  constructor
  · intro h
    split at h
    · next ht =>
      cases h
      exact ⟨ht, rfl⟩
    · cases h
  · rintro ⟨ht, rfl⟩
    rw [ht]

theorem flatten_set {threads : List (List τ)} {stack : List τ} (ht : threads[t]? = some stack) :
    ∃ others : Multiset τ, (threads.flatten : Multiset τ) = stack + others ∧
      ∀ stack' : List τ, ((threads.set t stack').flatten : Multiset τ) = stack' + others := by
  obtain ⟨hlt, hget⟩ := List.getElem?_eq_some_iff.mp ht
  have hmove : ∀ (l₁ l₂ : List (List τ)) (x : List τ), (((l₁ ++ x :: l₂).flatten : List τ) : Multiset τ) =
      x + ((l₁ ++ l₂).flatten : List τ) := fun l₁ l₂ x => by
    simp only [List.flatten_append, List.flatten_cons, ← Multiset.coe_add]
    exact add_left_comm _ _ _
  refine ⟨((threads.take t ++ threads.drop (t + 1)).flatten : List τ), ?_, fun stack' => ?_⟩
  · rw [← hmove, ← hget, ← List.drop_eq_getElem_cons hlt, List.take_append_drop]
  · rw [← hmove, List.set_eq_take_append_cons_drop, if_pos hlt]

/-- **What a turn does to the pending tasks**: one is taken, and those it leads to are added. -/
theorem run_tasks (h : p.run f t = some p') : ∃ j e, ∃ others : Multiset τ, p.top t = some j ∧
    f p.shared j = some e ∧ p'.shared = e.shared ∧ p.tasks = j ::ₘ others ∧
      p'.tasks = (e.next ++ e.spawned.flatten : List τ) + others := by
  obtain ⟨j, rest, e, ht, he, rfl⟩ := run_eq_some.mp h
  obtain ⟨others, hold, hnew⟩ := flatten_set ht
  refine ⟨j, e, rest + others, top_eq_some.mpr ⟨rest, ht⟩, he, rfl,
    hold.trans (Multiset.cons_add j rest others), ?_⟩
  show ((p.threads.set t (e.next ++ rest) ++ e.spawned).flatten : Multiset τ) = _
  rw [List.flatten_append, ← Multiset.coe_add, hnew, ← Multiset.coe_add, ← Multiset.coe_add]
  abel

theorem push_tasks (h : p.push t js = some p') : p'.shared = p.shared ∧ p'.tasks = js + p.tasks := by
  obtain ⟨ht, rfl⟩ := push_eq_some.mp h
  obtain ⟨others, hold, hnew⟩ := flatten_set ht
  have hothers : p.tasks = others := hold.trans (zero_add others)
  exact ⟨rfl, (hnew js).trans (by rw [hothers])⟩

theorem spawn_tasks (p : Pool σ τ) (js : List τ) : (p.spawn js).tasks = js + p.tasks := by
  unfold Pool.tasks Pool.spawn
  rw [List.flatten_append, List.flatten_singleton, ← Multiset.coe_add, add_comm]

/-- The pending tasks of a kind. -/
def Pool.those (p : Pool σ τ) (kind : τ → Bool) : Multiset τ := p.tasks.filter fun j => kind j = true

variable {kind : τ → Bool} {others : Multiset τ}

theorem mem_those : j ∈ p.those kind ↔ j ∈ p.tasks ∧ kind j = true := Multiset.mem_filter

theorem those_cons (h : p.tasks = j ::ₘ others) (hj : kind j = true) :
    p.those kind = j ::ₘ others.filter fun j => kind j = true := by
  unfold Pool.those
  rw [h]
  exact Multiset.filter_cons_of_pos (p := fun j => kind j = true) _ hj

theorem those_cons_of_not (h : p.tasks = j ::ₘ others) (hj : kind j = false) :
    p.those kind = others.filter fun j => kind j = true := by
  unfold Pool.those
  rw [h]
  exact Multiset.filter_cons_of_neg (p := fun j => kind j = true) _ (Bool.eq_false_iff.mp hj)

theorem those_append (h : p.tasks = js + others) :
    p.those kind = (js.filter kind).foldr Multiset.cons (others.filter fun j => kind j = true) := by
  have hfold : ∀ (l : List τ) (m : Multiset τ), l + m = l.foldr Multiset.cons m := fun l m => by
    induction l with
    | nil => exact zero_add m
    | cons j l ih =>
      rw [List.foldr_cons, ← ih]
      exact Multiset.cons_add j l m
  unfold Pool.those
  rw [h, Multiset.filter_add, Multiset.filter_coe, hfold]
  simp only [Bool.decide_eq_true]

theorem those_add (h : p.tasks = js + others) (hjs : ∀ j ∈ js, kind j = false) :
    p.those kind = others.filter fun j => kind j = true := by
  rw [those_append h, List.filter_eq_nil_iff.mpr fun j hj => Bool.eq_false_iff.mp (hjs j hj),
    List.foldr_nil]

theorem those_eq_zero : p.those kind = 0 ↔ ∀ j ∈ p.tasks, kind j = false := by
  unfold Pool.those
  simp only [Multiset.filter_eq_nil, Bool.not_eq_true]

/-! ### Tasks on top -/

/-- Tasks of a kind are on top of their stacks. -/
def Pool.OnTop (p : Pool σ τ) (P : τ → Prop) : Prop := ∀ stack ∈ p.threads, ∀ j ∈ stack.tail, ¬ P j

variable {P : τ → Prop}

theorem OnTop.exists_top (h : p.OnTop P) (hP : P j) (hj : j ∈ p.tasks) : ∃ t, p.top t = some j := by
  obtain ⟨stack, hstack, hmem⟩ := List.mem_flatten.mp (Multiset.mem_coe.mp hj)
  obtain ⟨t, hlt, ht⟩ := List.mem_iff_getElem.mp hstack
  cases stack with
  | nil => cases hmem
  | cons j' rest =>
    rcases List.mem_cons.mp hmem with rfl | htail
    · exact ⟨t, top_eq_some.mpr ⟨rest, List.getElem?_eq_some_iff.mpr ⟨hlt, ht⟩⟩⟩
    · exact absurd hP (h _ hstack j htail)

theorem OnTop.run (h : p.OnTop P) (hexec : ∀ s j e, f s j = some e → (∀ j' ∈ e.next.tail, ¬ P j') ∧
    ∀ stack ∈ e.spawned, ∀ j' ∈ stack.tail, ¬ P j') (hrun : p.run f t = some p') : p'.OnTop P := by
  obtain ⟨j, rest, e, ht, he, rfl⟩ := run_eq_some.mp hrun
  obtain ⟨hnext, hspawned⟩ := hexec _ _ _ he
  have hrest : ∀ j' ∈ rest, ¬ P j' := h _ (List.mem_of_getElem? ht)
  intro stack hstack j' hj'
  rcases List.mem_append.mp hstack with hstack | hstack
  · rcases List.mem_or_eq_of_mem_set hstack with hold | rfl
    · exact h _ hold j' hj'
    · cases hn : e.next with
      | nil =>
        rw [hn] at hj'
        exact hrest j' (List.mem_of_mem_tail hj')
      | cons j₁ js =>
        rw [hn] at hj' hnext
        rcases List.mem_append.mp hj' with hj' | hj'
        · exact hnext j' hj'
        · exact hrest j' hj'
  · exact hspawned _ hstack j' hj'

theorem OnTop.push (h : p.OnTop P) (hjs : ∀ j ∈ js.tail, ¬ P j) (hpush : p.push t js = some p') :
    p'.OnTop P := by
  obtain ⟨-, rfl⟩ := push_eq_some.mp hpush
  intro stack hstack
  rcases List.mem_or_eq_of_mem_set hstack with hold | rfl
  · exact h _ hold
  · exact hjs

theorem OnTop.spawn (h : p.OnTop P) (hjs : ∀ j ∈ js.tail, ¬ P j) : (p.spawn js).OnTop P := by
  intro stack hstack
  rcases List.mem_append.mp hstack with hold | hnew
  · exact h _ hold
  · rw [List.mem_singleton.mp hnew]
    exact hjs

theorem run_of_top {e : Effect σ τ} (ht : p.top t = some j) (he : f p.shared j = some e) : ∃ p',
    p.run f t = some p' ∧ p'.shared = e.shared ∧ (∀ j' ∈ e.next.head?, p'.top t = some j') ∧
      ∀ t' j', t' ≠ t → p.top t' = some j' → p'.top t' = some j' := by
  obtain ⟨rest, hget⟩ := top_eq_some.mp ht
  refine ⟨_, run_eq_some.mpr ⟨j, rest, e, hget, he, rfl⟩, rfl, fun j' hj' => ?_, fun t' j' hne hj' => ?_⟩
  · obtain ⟨js, hjs⟩ := List.head?_eq_some_iff.mp hj'
    obtain ⟨hlt, -⟩ := List.getElem?_eq_some_iff.mp hget
    refine top_eq_some.mpr ⟨js ++ rest, ?_⟩
    rw [List.getElem?_append_left (by rwa [List.length_set]), List.getElem?_set_self hlt, hjs,
      List.cons_append]
  · obtain ⟨rest', hget'⟩ := top_eq_some.mp hj'
    obtain ⟨hlt, -⟩ := List.getElem?_eq_some_iff.mp hget'
    refine top_eq_some.mpr ⟨rest', ?_⟩
    rw [List.getElem?_append_left (by rwa [List.length_set]), List.getElem?_set_ne hne.symm, hget']

end Namecoin.Lib.Threads
