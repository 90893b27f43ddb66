import Namecoin.Paxos.Commits

/-! # Waiting for a step

`Tag` waits on a channel that it registers for its step, and a commit closes the channels of its step.
The commit closes them before it advances the current step, and `registerStepWaiter` looks at the
current step only, so a channel that is registered in between stays open.

* `waiters_iff`: **no channel of a step below the current one is open when no commit is in progress**,
  as long as there is one commit at a time and no channel is registered for the current step after the
  commit has closed the channels;
* `lost_waiter`: a channel that is registered then. -/

namespace Namecoin.Paxos.Waiters

open Function
open Lib.ByteStrings Lib.Threads Paxos.Defs Paxos.Threads Paxos.Commits

variable {A : Type} {n n' : Node A} {j : Work A} {p p' : Pool (Node A) (Work A)} {a : Event A}

/-- The tasks of a commit that has closed the channels of its step. -/
def closing : Work A → Bool
  | .cleanProposer _ | .cleanTLC _ | .advance => true
  | _ => false

/-- The step for which a channel is about to be registered. -/
def registering : Work A → Option ℕ
  | .register s _ => some s
  | _ => none

/-- No commit has closed the channels of its step and not yet advanced the current step. -/
def NotClosing (p : Pool (Node A) (Work A)) : Prop := ∀ j ∈ p.tasks, closing j = false

/-- **No open channel for a finished step** when no commit is in progress. -/
def NoneLeft (p : Pool (Node A) (Work A)) : Prop :=
  Idle p → ∀ s < p.shared.currentStep, p.shared.stepWaiters s = []

/-- No second commit begins, and no channel is registered for the current step after the commit has
closed the channels of the step. -/
def InTime (p : Pool (Node A) (Work A)) : Event A → Prop
  | .run t => Alone p (.run t) ∧ ((p.top t).bind registering = some p.shared.currentStep → NotClosing p)
  | _ => True

theorem InTime.alone (h : InTime p a) : Alone p a := by
  cases a with
  | run t => exact h.1
  | receive m src => exact True.intro
  | tag name mh => exact True.intro

theorem committing_of_closing (h : closing j = true) : committing j = true := by
  cases j <;> first | rfl | cases h

/-- All channels of earlier steps are closed, and so are those of the current step if a
commit is past that point. -/
structure Closed (p : Pool (Node A) (Work A)) : Prop where
  orderly : Orderly p
  earlier : ∀ s < p.shared.currentStep, p.shared.stepWaiters s = []
  current : ∀ j ∈ busy p, closing j = true → p.shared.stepWaiters p.shared.currentStep = []

theorem Closed.noneLeft (h : Closed p) : NoneLeft p := fun _ => h.earlier

theorem notClosing_iff : NotClosing p ↔ ∀ j ∈ busy p, closing j = false := by
  refine ⟨fun h j hj => h j (mem_those.mp hj).1, fun h j hj => ?_⟩
  by_contra hclosing
  have hclosing := Bool.eq_true_of_not_eq_false hclosing
  exact absurd (h j (mem_those.mpr ⟨hj, committing_of_closing hclosing⟩)) (by rw [hclosing]; decide)

variable [DecidableEq A] {H : Bytes → Digest}

omit [DecidableEq A] in
theorem Closed.keep (h : Closed p) (horderly : Orderly p')
    (hstep : p'.shared.currentStep = p.shared.currentStep)
    (hwaiters : p'.shared.stepWaiters = p.shared.stepWaiters)
    (hbusy : ∀ j ∈ busy p', closing j = true → ∃ j' ∈ busy p, closing j' = true) : Closed p' := by
  refine ⟨horderly, ?_, fun j hj hclosing => ?_⟩
  · rw [hstep, hwaiters]
    exact h.earlier
  · obtain ⟨j', hj', hclosing'⟩ := hbusy j hj hclosing
    rw [hstep, hwaiters]
    exact h.current j' hj' hclosing'

theorem closed_step (htime : InTime p a) (hs : (peer A H).step p a = some p') (h : Closed p) :
    Closed p' := by
  have horderly := orderly_step htime.alone hs h.orderly
  cases moved_step hs with
  | calm hstep _ hwaiters hbusy => exact h.keep horderly hstep hwaiters fun j hj hc => ⟨j, hbusy ▸ hj, hc⟩
  | check t B _ _ hshared hbusy =>
    refine h.keep horderly (by rw [hshared]) (by rw [hshared]) fun j hj hclosing => ?_
    rcases Multiset.mem_cons.mp (hbusy ▸ hj) with rfl | hj
    · cases hclosing
    · exact ⟨j, hj, hclosing⟩
  | register t s v ha htop hle hshared hbusy =>
    subst ha
    unfold registerStepWaiter at hshared
    rw [if_neg (Nat.not_lt.mpr hle)] at hshared
    refine ⟨horderly, fun s' hs' => ?_, fun j hj hclosing => ?_⟩
    · rw [hshared] at hs' ⊢
      have hne : s' ≠ s := Nat.ne_of_lt (Nat.lt_of_lt_of_le hs' hle)
      exact (update_of_ne hne ..).trans (h.earlier s' hs')
    · -- the channel is for a later step
      have hne : p.shared.currentStep ≠ s := by
        rintro rfl
        have hnot := notClosing_iff.mp (htime.2 (by rw [htop]; rfl)) j (hbusy ▸ hj)
        rw [hclosing] at hnot
        cases hnot
      rw [hshared]
      exact (update_of_ne hne ..).trans (h.current j (hbusy ▸ hj) hclosing)
  | commit s B rest hold hshared hbusy =>
    obtain ⟨-, rfl⟩ := h.orderly.stage hold
    refine h.keep horderly (by rw [hshared]; rfl) (by rw [hshared]; rfl) fun j hj hclosing => ?_
    rw [hbusy, Multiset.mem_cons, or_iff_left (Multiset.notMem_zero j)] at hj
    rw [hj] at hclosing
    cases hclosing
  | waiters s rest hold hshared hbusy =>
    obtain ⟨⟨rfl, -⟩, -⟩ := h.orderly.stage hold
    refine ⟨horderly, fun s' hs' => ?_, fun _ _ _ => ?_⟩
    · rw [hshared] at hs' ⊢
      have hlt : s' < p.shared.currentStep := hs'
      exact (update_of_ne (Nat.ne_of_lt hlt) ..).trans (h.earlier s' hlt)
    · rw [hshared]
      exact update_self ..
  | cleanProposer s rest hold hshared hbusy =>
    exact h.keep horderly (by rw [hshared]; rfl) (by rw [hshared]; rfl)
      fun _ _ _ => ⟨_, hold ▸ Multiset.mem_cons_self _ rest, rfl⟩
  | cleanTLC s rest hold hshared hbusy =>
    exact h.keep horderly (by rw [hshared]; rfl) (by rw [hshared]; rfl)
      fun _ _ _ => ⟨_, hold ▸ Multiset.mem_cons_self _ rest, rfl⟩
  | advance rest hold hshared hbusy =>
    have hcurrent := h.current _ (hold ▸ Multiset.mem_cons_self _ rest) rfl
    obtain ⟨-, rfl⟩ := h.orderly.stage hold
    refine ⟨horderly, fun s' hs' => ?_, fun j hj => ?_⟩
    · rw [hshared] at hs' ⊢
      rcases Nat.lt_succ_iff_lt_or_eq.mp hs' with hlt | rfl
      · exact h.earlier s' hlt
      · exact hcurrent
    · rw [hbusy] at hj
      exact absurd hj (Multiset.notMem_zero j)

theorem closed_start (h : (peer A H).start p) : Closed p := by
  have horderly := orderly_start h
  obtain ⟨self, paxosID, totalPeers, width, rfl⟩ := h
  exact ⟨horderly, fun _ _ => rfl, fun _ _ _ => rfl⟩

/-! ### A channel that stays open -/

omit [DecidableEq A] in
theorem inTime_of_top {t : ℕ} (htop : p.top t = some j) (hj : closing j = true) : InTime p (.run t) := by
  refine ⟨alone_of_top htop fun s B h => ?_, fun hreg => ?_⟩
  · rw [h] at hj
    cases hj
  · rw [htop] at hreg
    cases j <;> cases hj <;> cases hreg

theorem left_of_advance {t : ℕ} (h : Orderly p) (htop : p.top t = some .advance)
    (hopen : p.shared.stepWaiters p.shared.currentStep ≠ []) :
    ∃ p', (peer A H).Goes InTime p p' ∧ ¬ NoneLeft p' := by
  obtain ⟨p', hrun, hshared, -⟩ := run_of_top (f := exec H) htop rfl
  refine ⟨p', .single ⟨.run t, inTime_of_top htop rfl, hrun⟩, fun hnone => ?_⟩
  obtain ⟨j, e, others, htop', he, -, hold, hnew⟩ := run_tasks hrun
  cases htop.symm.trans htop'
  cases he
  obtain ⟨-, hrest⟩ := h.stage (those_cons hold rfl)
  have hbusy : busy p' = 0 := by
    rw [← hrest]
    refine those_add hnew fun j hj => ?_
    rw [List.flatten_nil, List.append_nil] at hj
    unfold catchUp at hj
    split at hj
    · rw [List.mem_singleton.mp hj]
      rfl
    · cases hj
  have hclosed := hnone (idle_iff.mpr hbusy) p.shared.currentStep
    (by rw [hshared]; exact Nat.lt_succ_self _)
  rw [hshared] at hclosed
  exact hopen hclosed

theorem left_of_closing {t : ℕ} (h : Orderly p) (htop : p.top t = some j) (hj : closing j = true)
    (hopen : p.shared.stepWaiters p.shared.currentStep ≠ []) :
    ∃ p', (peer A H).Goes InTime p p' ∧ ¬ NoneLeft p' := by
  have hclean : ∀ {p : Pool (Node A) (Work A)} {s : ℕ}, Orderly p → p.top t = some (.cleanTLC s) →
      p.shared.stepWaiters p.shared.currentStep ≠ [] → ∃ p', (peer A H).Goes InTime p p' ∧
      ¬ NoneLeft p' := by
    intro p s h htop hopen
    obtain ⟨p₁, hrun, hshared, hnext, -⟩ := run_of_top (f := exec H) htop rfl
    have htime := inTime_of_top htop rfl
    obtain ⟨p', hgo, hnot⟩ := left_of_advance (H := H) (orderly_step (H := H) htime.alone hrun h)
      (hnext _ rfl) (by rw [hshared]; exact hopen)
    exact ⟨p', .head ⟨.run t, htime, hrun⟩ hgo, hnot⟩
  cases j with
  | cleanProposer s =>
    obtain ⟨p₁, hrun, hshared, hnext, -⟩ := run_of_top (f := exec H) htop rfl
    have htime := inTime_of_top htop rfl
    obtain ⟨p', hgo, hnot⟩ := hclean (orderly_step (H := H) htime.alone hrun h) (hnext _ rfl)
      (by rw [hshared]; exact hopen)
    exact ⟨p', .head ⟨.run t, htime, hrun⟩ hgo, hnot⟩
  | cleanTLC s => exact hclean h htop hopen
  | advance => exact left_of_advance h htop hopen
  | _ => cases hj

theorem register_run {t : ℕ} {v : PaxosValue} (htop : p.top t = some (.register p.shared.currentStep v))
    (hs : (peer A H).step p (.run t) = some p') : p'.shared.stepWaiters p'.shared.currentStep ≠ [] ∧
      ∀ t' j', t' ≠ t → p.top t' = some j' → p'.top t' = some j' := by
  have he : exec H p.shared (.register p.shared.currentStep v) =
      goOn (registerStepWaiter p.shared p.shared.currentStep).1
      [.wait p.shared.currentStep p.shared.channels v] := by
    simp only [exec, registerStepWaiter, if_neg (Nat.lt_irrefl _)]
  obtain ⟨p₁, hrun, hshared, -, hkeep⟩ := run_of_top htop he
  cases hrun.symm.trans hs
  refine ⟨?_, hkeep⟩
  rw [hshared]
  simp only [registerStepWaiter, if_neg (Nat.lt_irrefl _), update_self]
  exact List.concat_ne_nil _ _

/-- **No channel of a finished step is open when no commit is in progress**, in every run in which
there is one commit at a time and no channel is registered for the current step after the commit
has closed the channels of the step. If a channel is registered then, there is a way to go on
after which it is left open. -/
theorem waiters_iff (h : (peer A H).Reach InTime p) : NoneLeft p ∧ ∀ a p', (peer A H).step p a = some p' →
    Alone p a → (InTime p a ↔ ∀ p'', (peer A H).Goes InTime p' p'' → NoneLeft p'') := by
  have hclosed : ∀ {p}, (peer A H).Reach InTime p → Closed p := fun hp =>
    hp.invariant (fun _ => closed_start) fun _ _ _ => closed_step
  have htops : p.OnTop fun j => committing j = true :=
    h.invariant (fun _ => onTop_start) fun _ _ _ _ => onTop_step onTop_committing
  refine ⟨(hclosed h).noneLeft, fun a p' hs halone => ⟨fun htime p'' hgo => ?_, fun hall => ?_⟩⟩
  · exact (hclosed ((h.step htime hs).goes hgo)).noneLeft
  · cases a with
    | run t =>
      refine ⟨halone, fun hreg => notClosing_iff.mpr fun j hj => ?_⟩
      by_contra hclosing
      have hclosing := Bool.eq_true_of_not_eq_false hclosing
      obtain ⟨t', htop'⟩ := exists_busy htops hj
      obtain ⟨j₁, htop, hj₁⟩ := Option.bind_eq_some_iff.mp hreg
      cases j₁ with
      | register s v =>
        cases hj₁
        have hne : t' ≠ t := by
          rintro rfl
          cases htop.symm.trans htop'
          cases hclosing
        obtain ⟨hopen, hkeep⟩ := register_run htop hs
        have horderly := orderly_step halone hs (hclosed h).orderly
        obtain ⟨p'', hgo, hnot⟩ := left_of_closing (H := H) horderly (hkeep t' j hne htop') hclosing hopen
        exact hnot (hall p'' hgo)
      | _ => cases hj₁
    | receive m src => exact True.intro
    | tag name mh => exact True.intro

/-! ### Runs of three peers -/

instance (p : Pool (Node A) (Work A)) : Decidable (NotClosing p) :=
  inferInstanceAs (Decidable (∀ j ∈ p.tasks, closing j = false))

instance (p : Pool (Node A) (Work A)) : ∀ a, Decidable (InTime p a)
  | .receive .. | .tag .. => .isTrue True.intro
  | .run t => inferInstanceAs (Decidable (Alone p (.run t) ∧
      ((p.top t).bind registering = some p.shared.currentStep → NotClosing p)))

/-- `Tag` proposes a name for step 0, and the listen loop receives a quorum of TLC messages with the
block of another proposer. -/
def tagged : List (Event (Fin 3)) :=
  [.tag "mine" "hash"] ++ List.replicate 14 (.run 1) ++ handles (.tlc 0 block) 1 2 ++
    handles (.tlc 0 block) 2 4

/-- `Tag` waits, and then its channel is closed. -/
theorem waiters_closed : ∃ p : Pool (Node (Fin 3)) (Work (Fin 3)), (peer (Fin 3) digest).Reach InTime p ∧
    p.shared.currentStep = 1 ∧ p.shared.channels = 1 ∧ NoneLeft p := by
  have hrun : (((peer (Fin 3) digest).runOn InTime ⟨newNode 0 1 3 (.bits 64), [[]]⟩ (tagged ++ [.run 1] ++
      List.replicate 6 (.run 0))).map fun p => (p.shared.currentStep, p.shared.channels)) =
      some (1, 1) := by
    decide +kernel
  obtain ⟨p, hp, hafter⟩ := Option.map_eq_some_iff.mp hrun
  obtain ⟨hstep, hchannels⟩ := Prod.mk.inj hafter
  have hreach : (peer (Fin 3) digest).Reach InTime p := .runOn (.start ⟨0, 1, 3, .bits 64, rfl⟩) hp
  exact ⟨p, hreach, hstep, hchannels, (waiters_iff hreach).1⟩

/-- **A channel that is never closed**: the commit of step 0 has closed the channels when `Tag`
registers its own, and then advances the current step. -/
theorem lost_waiter : ∃ p : Pool (Node (Fin 3)) (Work (Fin 3)), (peer (Fin 3) digest).run
      ⟨newNode 0 1 3 (.bits 64), [[]]⟩
    (tagged ++ List.replicate 3 (.run 0) ++ [.run 1] ++ List.replicate 3 (.run 0)) = some p ∧
      p.top 1 = some (.wait 0 0 ⟨"mine", "hash"⟩) ∧ p.shared.stepWaiters 0 = [0] ∧ ¬ NoneLeft p := by
  have hrun : (((peer (Fin 3) digest).run ⟨newNode 0 1 3 (.bits 64), [[]]⟩
    (tagged ++ List.replicate 3 (.run 0) ++ [.run 1] ++ List.replicate 3 (.run 0))).map fun p =>
    (p.top 1, p.shared.stepWaiters 0, p.shared.currentStep, decide (Idle p))) =
    some (some (.wait 0 0 ⟨"mine", "hash"⟩), [0], 1, true) := by decide +kernel
  obtain ⟨p, hp, hafter⟩ := Option.map_eq_some_iff.mp hrun
  obtain ⟨htop, hafter⟩ := Prod.mk.inj hafter
  obtain ⟨hwaiters, hafter⟩ := Prod.mk.inj hafter
  obtain ⟨hstep, hidle⟩ := Prod.mk.inj hafter
  refine ⟨p, hp, htop, hwaiters, fun h => ?_⟩
  have hnone := h (of_decide_eq_true hidle) 0 (by rw [hstep]; exact Nat.one_pos)
  rw [hwaiters] at hnone
  cases hnone

end Namecoin.Paxos.Waiters
