import Mathlib.Order.Defs.Unbundled
import Mathlib.Tactic.SplitIfs
import Mathlib.Tactic.Common

/-! # Operations that change a state and may fail

An operation is a computation in `EStateM ε σ`: it returns a value or an error, and in both cases the
state as it has been changed so far. `final` is that state whatever the outcome.

* inversion: `bind_ok_iff` takes a successful sequence apart;
* relational rule: `Moves R op` says that every run of `op`, failed runs included, relates the state
  before to the state after by `R`; for a reflexive and transitive `R` it is closed under sequencing
  (`Moves.bind`) and loops over lists (`Moves.forList`);
* the loop: `forList f xs` runs `f` on the members of `xs` in order and stops at the first error;
  `forIdx` is the loop whose errors name the index;
* pure checks are in `Except ε`: `failIf c e` fails with `e` if `c` holds;
* errors: `Errors P x` and `Fails P op` say that every error has the property `P`; both are closed
  under sequencing. `Raises P x` and `RaisesIn P op s` say that an error with the property comes up. -/

namespace Namecoin.Lib.Ops

variable {ε σ α β : Type}

/-- The state an operation leaves, whether it succeeds or fails. -/
def final : EStateM.Result ε σ α → σ
  | .ok _ s => s
  | .error _ s => s

@[simp] theorem final_ok (a : α) (s : σ) : final (.ok a s : EStateM.Result ε σ α) = s := rfl

@[simp] theorem final_error (e : ε) (s : σ) : final (.error e s : EStateM.Result ε σ α) = s := rfl

/-! ### Checks -/

/-- Fail with `e` if `c` holds. -/
def failIf (c : Prop) [Decidable c] (e : ε) : Except ε PUnit := if c then .error e else .ok PUnit.unit

@[simp] theorem failIf_ok_iff {c : Prop} [Decidable c] {e : ε} {u : PUnit} :
    failIf c e = .ok u ↔ ¬ c := by
  unfold failIf
  split_ifs with h <;> simp [h]

theorem except_bind_ok_iff {x : Except ε α} {f : α → Except ε β} {b : β} :
    (x >>= f) = .ok b ↔ ∃ a, x = .ok a ∧ f a = .ok b := by
  cases x with
  | ok a => simp [bind, Except.bind]
  | error e => simp [bind, Except.bind]

theorem except_bind_congr {x : Except ε α} {f g : α → Except ε β} (h : ∀ a, x = .ok a → f a = g a) :
    (x >>= f) = (x >>= g) := by
  cases x with
  | ok a => exact h a rfl
  | error e => rfl

theorem except_seq_ok_iff {x : Except ε PUnit} {y : Except ε β} {b : β} :
    (x >>= fun _ => y) = .ok b ↔ x = .ok PUnit.unit ∧ y = .ok b := by
  rw [except_bind_ok_iff]
  exact ⟨fun ⟨_, h⟩ => h, fun h => ⟨_, h⟩⟩

theorem mapError_ok_iff {f : ε → ε} {x : Except ε α} {a : α} : x.mapError f = .ok a ↔ x = .ok a := by
  cases x <;> simp [Except.mapError]

theorem except_map_ok_iff {x : Except ε α} {f : α → β} {b : β} :
    x.map f = .ok b ↔ ∃ a, x = .ok a ∧ f a = b := by
  cases x <;> simp [Except.map]

/-! ### One step -/

@[simp] theorem pure_run (a : α) (s : σ) : (pure a : EStateM ε σ α) s = .ok a s := rfl

@[simp] theorem throw_run (e : ε) (s : σ) : (throw e : EStateM ε σ α) s = .error e s := rfl

@[simp] theorem get_run (s : σ) : (get : EStateM ε σ σ) s = .ok s s := rfl

@[simp] theorem set_run (s s' : σ) : (set s' : EStateM ε σ PUnit) s = .ok PUnit.unit s' := rfl

@[simp] theorem modify_run (f : σ → σ) (s : σ) :
    (modify f : EStateM ε σ PUnit) s = .ok PUnit.unit (f s) := rfl

theorem bind_run (x : EStateM ε σ α) (f : α → EStateM ε σ β) (s : σ) :
    (x >>= f) s = match x s with
      | .ok a s' => f a s'
      | .error e s' => .error e s' := rfl

theorem get_bind_run (f : σ → EStateM ε σ β) (s : σ) : ((get : EStateM ε σ σ) >>= f) s = f s s := rfl

theorem modify_bind_run (g : σ → σ) (f : PUnit → EStateM ε σ β) (s : σ) :
    ((modify g : EStateM ε σ PUnit) >>= f) s = f PUnit.unit (g s) := rfl

/-- **Inversion**: a sequence succeeds exactly when both parts do. -/
theorem bind_ok_iff {x : EStateM ε σ α} {f : α → EStateM ε σ β} {s s' : σ} {b : β} :
    (x >>= f) s = .ok b s' ↔ ∃ a s₁, x s = .ok a s₁ ∧ f a s₁ = .ok b s' := by
  rw [bind_run]
  cases x s with
  | ok a s₁ =>
    constructor
    · exact fun h => ⟨a, s₁, rfl, h⟩
    · rintro ⟨a', s', he, h⟩; cases he; exact h
  | error e s₁ => simp

/-- Lift a check that reads no state and changes none. -/
def check (c : Except ε α) : EStateM ε σ α :=
  match c with
  | .ok a => pure a
  | .error e => throw e

@[simp] theorem check_ok (a : α) : (check (.ok a) : EStateM ε σ α) = pure a := rfl

@[simp] theorem check_error (e : ε) : (check (.error e) : EStateM ε σ α) = throw e := rfl

theorem check_ok_iff {c : Except ε α} {s s' : σ} {a : α} :
    (check c : EStateM ε σ α) s = .ok a s' ↔ c = .ok a ∧ s' = s := by
  cases c with
  | ok b => simp [eq_comm]
  | error e => simp

/-- Run `op` and rewrite its error, as a caller does that wraps the error of a callee. -/
def wrap (f : ε → ε) (op : EStateM ε σ α) : EStateM ε σ α := fun s =>
  match op s with
  | .ok a s' => .ok a s'
  | .error e s' => .error (f e) s'

theorem wrap_ok_iff {f : ε → ε} {op : EStateM ε σ α} {s s' : σ} {a : α} :
    wrap f op s = .ok a s' ↔ op s = .ok a s' := by
  unfold wrap
  cases op s <;> simp

/-! ### The relational rule -/

/-- Every run of `op`, failed runs included, relates the states before and after by `R`. -/
def Moves (R : σ → σ → Prop) (op : EStateM ε σ α) : Prop := ∀ s, R s (final (op s))

section moves

variable {R : σ → σ → Prop}

theorem Moves.of_final_eq [Std.Refl R] {op : EStateM ε σ α} (h : ∀ s, final (op s) = s) : Moves R op :=
  fun s => by rw [h s]; exact Std.Refl.refl s

theorem Moves.pure [Std.Refl R] (a : α) : Moves R (pure a : EStateM ε σ α) := .of_final_eq fun _ => rfl

theorem Moves.bind [IsTrans σ R] {x : EStateM ε σ α} {f : α → EStateM ε σ β} (hx : Moves R x)
    (hf : ∀ a, Moves R (f a)) : Moves R (x >>= f) := by
  intro s
  have h1 := hx s
  rw [bind_run]
  cases h : x s with
  | ok a s₁ => rw [h] at h1; exact Trans.trans h1 (hf a s₁)
  | error e s₁ => rw [h] at h1; exact h1

theorem Moves.ite {c : Prop} [Decidable c] {x y : EStateM ε σ α} (hx : Moves R x) (hy : Moves R y) :
    Moves R (if c then x else y) := by split_ifs <;> assumption

theorem Moves.ok {op : EStateM ε σ α} (h : Moves R op) {s s' : σ} {a : α} (hr : op s = .ok a s') :
    R s s' := by
  have := h s
  rwa [hr] at this

end moves

/-! ### Loops over a list -/

/-- Run `f` on the members of a list in order, each with its index, up to the first error. -/
def forIdx (f : ℕ → α → EStateM ε σ PUnit) : ℕ → List α → EStateM ε σ PUnit
  | _, [] => pure PUnit.unit
  | i, x :: xs => do
    f i x
    forIdx f (i + 1) xs

/-- Run `f` on the members of a list in order, up to the first error. -/
def forList (f : α → EStateM ε σ PUnit) : List α → EStateM ε σ PUnit
  | [] => pure PUnit.unit
  | x :: xs => do
    f x
    forList f xs

theorem Moves.forList {R : σ → σ → Prop} [Std.Refl R] [IsTrans σ R] {f : α → EStateM ε σ PUnit} :
    ∀ {xs : List α}, (∀ x ∈ xs, Moves R (f x)) → Moves R (forList f xs)
  | [], _ => .pure _
  | x :: xs, h => .bind (h x (by simp)) fun _ => Moves.forList fun y hy => h y (by simp [hy])

theorem forList_cons_ok {f : α → EStateM ε σ PUnit} {x : α} {xs : List α} {s s' : σ} {u : PUnit} :
    forList f (x :: xs) s = .ok u s' ↔ ∃ s₁, f x s = .ok PUnit.unit s₁ ∧ forList f xs s₁ = .ok u s' := by
  rw [forList, bind_ok_iff]
  constructor
  · rintro ⟨_, s₁, h1, h2⟩; exact ⟨s₁, h1, h2⟩
  · rintro ⟨s₁, h1, h2⟩; exact ⟨_, s₁, h1, h2⟩

theorem forIdx_ok_iff {f : ℕ → α → EStateM ε σ PUnit} {g : α → EStateM ε σ PUnit}
    (h : ∀ i x s s' u, f i x s = .ok u s' ↔ g x s = .ok u s') :
    ∀ {xs : List α} {i : ℕ} {s s' : σ} {u : PUnit},
      forIdx f i xs s = .ok u s' ↔ forList g xs s = .ok u s'
  | [], _, _, _, _ => Iff.rfl
  | x :: xs, i, s, s', u => by
    rw [forIdx, forList, bind_ok_iff, bind_ok_iff]
    simp only [h, forIdx_ok_iff h]

/-! ### Errors -/

/-- Every error of a check has the property `P`. -/
def Errors (P : ε → Prop) (x : Except ε α) : Prop := ∀ e, x = .error e → P e

/-- Every error of an operation has the property `P`. -/
def Fails (P : ε → Prop) (op : EStateM ε σ α) : Prop := ∀ s e s', op s = .error e s' → P e

section errors

variable {P : ε → Prop}

theorem Errors.ok (a : α) : Errors P (.ok a : Except ε α) := fun e h => by cases h

theorem Errors.error {e : ε} (h : P e) : Errors P (.error e : Except ε α) :=
  fun e' he => by cases he; exact h

theorem Errors.failIf {c : Prop} [Decidable c] {e : ε} (h : P e) : Errors P (failIf c e) := by
  unfold Ops.failIf
  split_ifs
  · exact .error h
  · exact .ok _

theorem Errors.bind {x : Except ε α} {f : α → Except ε β} (hx : Errors P x) (hf : ∀ a, Errors P (f a)) :
    Errors P (x >>= f) := by
  cases x with
  | error e => exact .error (hx e rfl)
  | ok a => exact hf a

theorem Errors.map {x : Except ε α} {f : α → β} (hx : Errors P x) : Errors P (x.map f) := by
  cases x with
  | error e => exact .error (hx e rfl)
  | ok a => exact .ok _

theorem Errors.mapError {ε' : Type} {Q : ε' → Prop} {f : ε → ε'} {x : Except ε α} (hx : Errors P x)
    (hf : ∀ e, P e → Q (f e)) : Errors Q (x.mapError f) := by
  cases x with
  | error e => exact .error (hf e (hx e rfl))
  | ok a => exact .ok _

theorem Fails.pure (a : α) : Fails P (pure a : EStateM ε σ α) := fun s e s' h => by cases h

theorem Fails.get : Fails P (get : EStateM ε σ σ) := fun s e s' h => by cases h

theorem Fails.set (s₀ : σ) : Fails P (set s₀ : EStateM ε σ PUnit) := fun s e s' h => by cases h

theorem Fails.modify (f : σ → σ) : Fails P (modify f : EStateM ε σ PUnit) := fun s e s' h => by cases h

theorem Fails.throw {e : ε} (h : P e) : Fails P (throw e : EStateM ε σ α) :=
  fun s e' s' he => by cases he; exact h

theorem Fails.check {c : Except ε α} (h : Errors P c) : Fails P (check c : EStateM ε σ α) := by
  cases c with
  | ok a => exact .pure a
  | error e => exact .throw (h e rfl)

theorem Fails.wrap {f : ε → ε} {op : EStateM ε σ α} (h : Fails P op) (hf : ∀ e, P e → P (f e)) :
    Fails P (wrap f op) := fun s e s' he => by
  unfold Ops.wrap at he
  cases hr : op s with
  | ok a s₁ => rw [hr] at he; cases he
  | error e₁ s₁ =>
    rw [hr] at he
    cases he
    exact hf e₁ (h s e₁ _ hr)

theorem Fails.bind {x : EStateM ε σ α} {f : α → EStateM ε σ β} (hx : Fails P x)
    (hf : ∀ a, Fails P (f a)) :
    Fails P (x >>= f) := fun s e s' he => by
  rw [bind_run] at he
  cases hr : x s with
  | ok a s₁ => rw [hr] at he; exact hf a s₁ e s' he
  | error e₁ s₁ =>
    rw [hr] at he
    cases he
    exact hx s _ _ hr

theorem Fails.forList {f : α → EStateM ε σ PUnit} (h : ∀ x, Fails P (f x)) : ∀ xs, Fails P (forList f xs)
  | [] => .pure _
  | x :: xs => .bind (h x) fun _ => Fails.forList h xs

theorem Fails.forIdx {f : ℕ → α → EStateM ε σ PUnit} (h : ∀ i x, Fails P (f i x)) :
    ∀ i xs, Fails P (forIdx f i xs)
  | _, [] => .pure _
  | i, x :: xs => .bind (h i x) fun _ => Fails.forIdx h (i + 1) xs

/-! An error with the property comes up: in a sequence, it comes from the first
part or from what follows. -/

/-- A check has an error with the property `P`. -/
def Raises (P : ε → Prop) (x : Except ε α) : Prop := ∃ e, x = .error e ∧ P e

/-- An operation has an error with the property `P` in the state `s`. -/
def RaisesIn (P : ε → Prop) (op : EStateM ε σ α) (s : σ) : Prop := ∃ e s', op s = .error e s' ∧ P e

theorem Errors.not_raises {x : Except ε α} (h : Errors (fun e => ¬ P e) x) : ¬ Raises P x :=
  fun ⟨e, he, hPe⟩ => h e he hPe

theorem Fails.not_raisesIn {op : EStateM ε σ α} (h : Fails (fun e => ¬ P e) op) (s : σ) :
    ¬ RaisesIn P op s :=
  fun ⟨e, s', he, hPe⟩ => h s e s' he hPe

theorem raises_bind_iff {x : Except ε α} {f : α → Except ε β} :
    Raises P (x >>= f) ↔ Raises P x ∨ ∃ a, x = .ok a ∧ Raises P (f a) := by
  cases x with
  | ok a => simp [Raises, bind, Except.bind]
  | error e => simp [Raises, bind, Except.bind]

theorem raises_seq_iff {x : Except ε PUnit} {y : Except ε β} (hx : Errors (fun e => ¬ P e) x) :
    Raises P (x >>= fun _ => y) ↔ x = .ok PUnit.unit ∧ Raises P y := by
  rw [raises_bind_iff, or_iff_right hx.not_raises]
  exact ⟨fun ⟨_, h⟩ => h, fun h => ⟨_, h⟩⟩

theorem raises_mapError_iff {f : ε → ε} (hf : ∀ e, P (f e) ↔ P e) {x : Except ε α} :
    Raises P (x.mapError f) ↔ Raises P x := by
  cases x with
  | ok a => simp [Raises, Except.mapError]
  | error e => simp [Raises, Except.mapError, hf]

theorem raisesIn_check_iff {c : Except ε α} {s : σ} : RaisesIn P (check c : EStateM ε σ α) s ↔
    Raises P c := by
  cases c with
  | ok a => simp [RaisesIn, Raises]
  | error e => simp [RaisesIn, Raises]

theorem raisesIn_bind_iff {x : EStateM ε σ α} {f : α → EStateM ε σ β} {s : σ} :
    RaisesIn P (x >>= f) s ↔ RaisesIn P x s ∨ ∃ a s₁, x s = .ok a s₁ ∧ RaisesIn P (f a) s₁ := by
  unfold RaisesIn
  rw [bind_run]
  cases x s with
  | ok a s₁ => simp
  | error e s₁ => simp

/-- **A loop raises the error** in the turn of one element, after the turns of those before it. -/
theorem raisesIn_forIdx_iff {f : ℕ → α → EStateM ε σ PUnit} : ∀ {xs : List α} {i : ℕ} {s : σ},
    RaisesIn P (forIdx f i xs) s ↔ ∃ done x rest s₁, xs = done ++ x :: rest ∧
      forIdx f i done s = .ok PUnit.unit s₁ ∧ RaisesIn P (f (i + done.length) x) s₁
  | [], i, s => by simp [forIdx, RaisesIn]
  | x :: xs, i, s => by
    rw [forIdx, raisesIn_bind_iff]
    constructor
    · rintro (h | ⟨⟨⟩, s₁, hx, h⟩)
      · exact ⟨[], x, xs, s, rfl, rfl, h⟩
      · obtain ⟨done, y, rest, s₂, rfl, hdone, hy⟩ := raisesIn_forIdx_iff.mp h
        refine ⟨x :: done, y, rest, s₂, rfl, ?_, ?_⟩
        · rw [forIdx, bind_ok_iff]
          exact ⟨_, s₁, hx, hdone⟩
        · rw [List.length_cons, ← Nat.add_assoc, Nat.add_right_comm]
          exact hy
    · rintro ⟨done, y, rest, s₂, he, hdone, hy⟩
      cases done with
      | nil =>
        cases he
        cases hdone
        exact .inl hy
      | cons z done =>
        cases he
        rw [forIdx, bind_ok_iff] at hdone
        obtain ⟨⟨⟩, s₁, hx, hdone⟩ := hdone
        refine .inr ⟨_, s₁, hx, raisesIn_forIdx_iff.mpr ⟨done, y, rest, s₂, rfl, hdone, ?_⟩⟩
        rw [List.length_cons, ← Nat.add_assoc, Nat.add_right_comm] at hy
        exact hy

end errors

end Namecoin.Lib.Ops
