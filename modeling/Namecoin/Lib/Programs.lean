import Mathlib.Control.Basic
import Mathlib.Data.List.Basic
import Mathlib.Logic.Relation
import Mathlib.Tactic.Common

/-! # Programs that ask their surroundings

A program is a tree of requests: it asks for something and goes on with the answer, until it returns a
value. A handler answers the requests from a state. Several programs may run side by side over one
state, each of which asks its next request whenever it has a turn.

* `Prog.Keeps`: as long as the answers are as assumed, all requests and the value
  returned are as promised;
* `keeps_bind`, `keeps_run_bind`: one program after another, with and without exceptions;
* `Pool.Holds.advance`: what the programs promise and the handler keeps is kept by a turn,
  whichever program has it;
* `Prog.exec` runs a program without interruption, and `exec_run_bind` does so step by step;
* `advances_exec`: a program that is alone in the pool comes to what `exec` says. -/

namespace Namecoin.Lib.Programs

/-- Programs with requests in `Op`, where `o : Op` is answered by a value of type `Ans o`. -/
inductive Prog (Op : Type) (Ans : Op → Type) (α : Type) : Type
  | ret (a : α)
  | ask (o : Op) (next : Ans o → Prog Op Ans α)

variable {Op : Type} {Ans : Op → Type} {α β ε σ : Type}

/-- Go on with the value returned. -/
def Prog.bind : Prog Op Ans α → (α → Prog Op Ans β) → Prog Op Ans β
  | .ret a, f => f a
  | .ask o next, f => .ask o fun a => (next a).bind f

instance : Monad (Prog Op Ans) where
  pure := .ret
  bind := Prog.bind

/-- One request, in a program that may fail. -/
def request (o : Op) : ExceptT ε (Prog Op Ans) (Ans o) := ExceptT.mk (.ask o fun a => .ret (.ok a))

/-! ### What a program promises -/

section Keeps

variable (A : ∀ o, Ans o → Prop) (G : Op → Prop)

/-- As long as the answers meet `A`, the requests meet `G` and the value returned meets `Q`. -/
def Prog.Keeps (Q : α → Prop) : Prog Op Ans α → Prop
  | .ret a => Q a
  | .ask o next => G o ∧ ∀ a, A o a → (next a).Keeps Q

variable {A G} {Q : β → Prop} {R : Except ε β → Prop}

theorem keeps_bind {f : α → Prog Op Ans β} : ∀ {p : Prog Op Ans α},
    (p.bind f).Keeps A G Q ↔ p.Keeps A G fun a => (f a).Keeps A G Q
  | .ret _ => Iff.rfl
  | .ask _ _ => and_congr_right' (forall₂_congr fun _ _ => keeps_bind)

theorem Prog.Keeps.imp {P Q : α → Prop} (h : ∀ a, P a → Q a) :
    ∀ {p : Prog Op Ans α}, p.Keeps A G P → p.Keeps A G Q
  | .ret a, hp => h a hp
  | .ask _ _, hp => ⟨hp.1, fun a ha => (hp.2 a ha).imp h⟩

/-- What follows a step that may fail. -/
def Continues (A : ∀ o, Ans o → Prop) (G : Op → Prop) (R : Except ε β → Prop)
    (f : α → ExceptT ε (Prog Op Ans) β) :
    Except ε α → Prop
  | .ok a => (f a).run.Keeps A G R
  | .error e => R (.error e)

theorem keeps_run_bind {x : ExceptT ε (Prog Op Ans) α} {f : α → ExceptT ε (Prog Op Ans) β} :
    (x >>= f).run.Keeps A G R ↔ x.run.Keeps A G (Continues A G R f) := by
  refine Iff.trans (keeps_bind (p := x.run)) ?_
  constructor
  · refine Prog.Keeps.imp fun r hr => ?_
    cases r with
    | ok a => exact hr
    | error e => exact hr
  · refine Prog.Keeps.imp fun r hr => ?_
    cases r with
    | ok a => exact hr
    | error e => exact hr

end Keeps

/-! ### Programs side by side -/

/-- Programs that run over one state, and the values that others have returned. -/
structure Pool (Op : Type) (Ans : Op → Type) (σ α : Type) where
  shared : σ
  running : List (Prog Op Ans α)
  returned : List α

variable (handle : σ → (o : Op) → Ans o × σ)

/-- A turn of a program. -/
def Pool.advance (P : Pool Op Ans σ α) (i : ℕ) : Option (Pool Op Ans σ α) :=
  match P.running[i]? with
  | none => none
  | some (.ret a) => some { P with running := P.running.eraseIdx i, returned := a :: P.returned }
  | some (.ask o next) =>
    let r := handle P.shared o
    some { P with shared := r.2, running := P.running.set i (next r.1) }

/-- A new program. -/
def Pool.launch (P : Pool Op Ans σ α) (p : Prog Op Ans α) : Pool Op Ans σ α :=
  { P with running := P.running ++ [p] }

/-- The state is as it should be, and so are the programs that run and the values returned. -/
structure Pool.Holds (I : σ → Prop) (K : Prog Op Ans α → Prop) (Q : α → Prop) (P : Pool Op Ans σ α) :
    Prop where
  shared : I P.shared
  running : ∀ p ∈ P.running, K p
  returned : ∀ a ∈ P.returned, Q a

variable {handle} {I : σ → Prop} {K : Prog Op Ans α → Prop} {Q : α → Prop}
  {P P' : Pool Op Ans σ α} {i : ℕ}

theorem Pool.Holds.launch {p : Prog Op Ans α} (h : P.Holds I K Q) (hp : K p) :
    (P.launch p).Holds I K Q := by
  refine ⟨h.shared, fun q hq => ?_, h.returned⟩
  rcases List.mem_append.mp hq with hq | hq
  · exact h.running q hq
  · rw [List.mem_singleton.mp hq]
    exact hp

/-- **A turn keeps** what the programs promise, if the handler answers as they assume. -/
theorem Pool.Holds.advance (h : P.Holds I K Q) (hret : ∀ a, K (.ret a) → Q a)
    (hask : ∀ o next, P.running[i]? = some (.ask o next) → K (.ask o next) →
      I (handle P.shared o).2 ∧ K (next (handle P.shared o).1))
    (hs : P.advance handle i = some P') : P'.Holds I K Q := by
  unfold Pool.advance at hs
  split at hs
  · cases hs
  · rename_i a hi
    cases hs
    refine ⟨h.shared, fun p hp => h.running p (List.mem_of_mem_eraseIdx hp), fun b hb => ?_⟩
    rcases List.mem_cons.mp hb with rfl | hb
    · exact hret _ (h.running _ (List.mem_of_getElem? hi))
    · exact h.returned b hb
  · rename_i o next hi
    cases hs
    obtain ⟨hI, hK⟩ := hask o next hi (h.running _ (List.mem_of_getElem? hi))
    refine ⟨hI, fun p hp => ?_, h.returned⟩
    rcases List.mem_or_eq_of_mem_set hp with hp | rfl
    · exact h.running p hp
    · exact hK

/-! ### A program alone -/

/-- Run a program without interruption. -/
def Prog.exec (handle : σ → (o : Op) → Ans o × σ) : Prog Op Ans α → σ → α × σ
  | .ret a, s => (a, s)
  | .ask o next, s => ((next (handle s o).1).exec handle (handle s o).2)

theorem exec_bind {f : α → Prog Op Ans β} : ∀ {p : Prog Op Ans α} {s : σ},
    (p.bind f).exec handle s = (f (p.exec handle s).1).exec handle (p.exec handle s).2
  | .ret _, _ => rfl
  | .ask o next, s => exec_bind (p := next (handle s o).1)

theorem exec_run_bind {x : ExceptT ε (Prog Op Ans) α} {f : α → ExceptT ε (Prog Op Ans) β} {s : σ} :
    (x >>= f).run.exec handle s = match x.run.exec handle s with
      | (.ok a, s') => (f a).run.exec handle s'
      | (.error e, s') => (.error e, s') := by
  refine (exec_bind (p := x.run)).trans ?_
  rcases x.run.exec handle s with ⟨r | r, s'⟩
  · rfl
  · rfl

theorem advances_exec {done : List α} : ∀ (p : Prog Op Ans α) (s : σ),
    Relation.ReflTransGen (fun P P' : Pool Op Ans σ α => P.advance handle 0 = some P') ⟨s, [p], done⟩
      ⟨(p.exec handle s).2, [], (p.exec handle s).1 :: done⟩
  | .ret _, _ => .single rfl
  | .ask o next, s => .head (b := ⟨(handle s o).2, [next (handle s o).1], done⟩) rfl (advances_exec _ _)

end Namecoin.Lib.Programs
