import Namecoin.Paxos.Threads

/-! # Commits of a node

`commitStepAndAdvance` compares its step with the current step in one critical section and advances the
current step in another, and in between it commits the block, closes the channels of the waiters and
cleans up. It is called by the listen loop and by the goroutines that broadcast TLC messages, and
nothing keeps two calls apart.

* `Moved`: what a step of the node does to the commits and to the waiters, and
  `moved_step`: there is nothing else;
* `commits_iff`: **each step is committed once and in order** as long as no call finds its step to be
  the current one while a commit is in progress, and no longer;
* `commits_twice`: two calls that do. -/

namespace Namecoin.Paxos.Commits

open Function
open Lib.ByteStrings Lib.Threads Paxos.Defs Paxos.Threads

variable {A : Type} {n n' : Node A} {j : Work A} {e : Effect (Node A) (Work A)}

/-- The tasks of a commit in progress. -/
def committing : Work A → Bool
  | .commit .. | .waiters _ | .cleanProposer _ | .cleanTLC _ | .advance => true
  | _ => false

/-- No commit is in progress. -/
def Idle (p : Pool (Node A) (Work A)) : Prop := ∀ j ∈ p.tasks, committing j = false

/-- A task that has nothing to do with commits. -/
structure Calm (n : Node A) (e : Effect (Node A) (Work A)) : Prop where
  step : e.shared.currentStep = n.currentStep
  commits : e.shared.commits = n.commits
  waiters : e.shared.stepWaiters = n.stepWaiters
  next : ∀ j ∈ e.next ++ e.spawned.flatten, committing j = false

theorem calm_goOn {js : List (Work A)} (hstep : n'.currentStep = n.currentStep)
    (hcommits : n'.commits = n.commits) (hwaiters : n'.stepWaiters = n.stepWaiters)
    (hjs : js.all (fun j => !committing j) = true) :
    ∀ e, goOn n' js = some e → Calm n e := by
  rintro e ⟨⟩
  exact ⟨hstep, hcommits, hwaiters, by simpa using List.all_eq_true.mp hjs⟩

theorem calm_fork {js : List (Work A)} (hstep : n'.currentStep = n.currentStep)
    (hcommits : n'.commits = n.commits) (hwaiters : n'.stepWaiters = n.stepWaiters)
    (hjs : js.all (fun j => !committing j) = true) :
    ∀ e, fork n' js = some e → Calm n e := by
  rintro e ⟨⟩
  exact ⟨hstep, hcommits, hwaiters, by simpa using List.all_eq_true.mp hjs⟩

theorem calm_guard {c : Prop} [Decidable c] {js : List (Work A)}
    (hjs : js.all (fun j => !committing j) = true) :
    ∀ e, goOn n (if c then [] else js) = some e → Calm n e := by
  refine calm_goOn rfl rfl rfl ?_
  split_ifs
  · rfl
  · exact hjs

variable [DecidableEq A] {H : Bytes → Digest} {p p' : Pool (Node A) (Work A)} {a : Event A}

theorem calm_promiseSection (n : Node A) (s id k : ℕ) (hv : Option PaxosValue) (src : Option A) :
    ∀ e, promiseSection n s id k hv src = some e → Calm n e := by
  have hview : (countPromise n s id k hv src).currentStep = n.currentStep ∧
      (countPromise n s id k hv src).commits = n.commits ∧
        (countPromise n s id k hv src).stepWaiters = n.stepWaiters := by
    unfold countPromise
    cases hv with
    | none => exact ⟨rfl, rfl, rfl⟩
    | some v =>
      dsimp only
      split_ifs <;> exact ⟨rfl, rfl, rfl⟩
  obtain ⟨hstep, hcommits, hwaiters⟩ := hview
  unfold promiseSection
  dsimp only
  split_ifs
  · exact calm_goOn hstep hcommits hwaiters rfl
  · exact calm_goOn hstep hcommits hwaiters rfl
  · exact calm_goOn rfl rfl rfl rfl

omit [DecidableEq A] in
theorem calm_checkSection (n : Node A) (v : PaxosValue) (hj : committing j = false) :
    ∀ e, checkSection n v j = some e → Calm n e := by
  unfold checkSection
  split
  · exact calm_goOn rfl rfl rfl rfl
  · exact calm_goOn rfl rfl rfl (by simp [hj])

/-- **Most tasks have nothing to do with commits.** -/
theorem calm_exec (hj : committing j = false) (hcheck : ∀ s B, j = .check s B → s ≠ n.currentStep)
    (hreg : ∀ s v, j = .register s v → s < n.currentStep) : ∀ e, exec H n j = some e → Calm n e := by
  cases j with
  | emit m => exact calm_goOn rfl rfl rfl rfl
  | prepare s id source => exact calm_guard rfl
  | prepareLock s id source =>
    simp only [exec]
    split_ifs
    · exact calm_goOn rfl rfl rfl rfl
    · refine calm_goOn rfl rfl rfl ?_
      unfold sendPromise
      cases source with
      | none => rfl
      | some d =>
        dsimp only
        split_ifs <;> rfl
  | promise s id k hv src => exact calm_guard rfl
  | promiseLock s id k hv src => exact calm_promiseSection n s id k hv src
  | propose s id v src => exact calm_guard rfl
  | proposeLock s id v src =>
    simp only [exec, proposeSection]
    split_ifs
    · exact calm_goOn rfl rfl rfl rfl
    · exact calm_fork rfl rfl rfl rfl
    · exact calm_goOn rfl rfl rfl rfl
  | phase2 s id => exact calm_goOn rfl rfl rfl rfl
  | accept s id v src => exact calm_guard rfl
  | acceptLock s id v src =>
    simp only [exec, acceptSection, trackAcceptCounts]
    refine calm_goOn rfl rfl rfl ?_
    split_ifs <;> rfl
  | phase3 s => exact calm_goOn rfl rfl rfl rfl
  | build s v => exact calm_fork rfl rfl rfl rfl
  | tlc s B src => exact calm_guard rfl
  | tlcLock s B src cur =>
    simp only [exec, tlcSection]
    refine calm_goOn rfl rfl rfl ?_
    split_ifs <;> rfl
  | flag s B l =>
    simp only [exec, flagSection]
    split_ifs
    all_goals exact calm_goOn rfl rfl rfl rfl
  | check s B =>
    simp only [exec, if_pos (hcheck s B rfl)]
    exact calm_goOn rfl rfl rfl rfl
  | commit s B => cases hj
  | waiters s => cases hj
  | cleanProposer s => cases hj
  | cleanTLC s => cases hj
  | advance => cases hj
  | tagBegin name mh =>
    simp only [exec, tagSection]
    split_ifs
    all_goals exact calm_goOn rfl rfl rfl rfl
  | tagCheck v => exact calm_checkSection n v rfl
  | tagRead v => exact calm_goOn rfl rfl rfl rfl
  | tagInit s v => exact calm_goOn rfl rfl rfl rfl
  | sendPrepare s => exact calm_goOn rfl rfl rfl rfl
  | retry s => exact calm_fork rfl rfl rfl rfl
  | register s v =>
    simp only [exec, registerStepWaiter, if_pos (hreg s v rfl)]
    exact calm_goOn rfl rfl rfl rfl
  | wait s ch v =>
    simp only [exec]
    split_ifs
    · exact fun e he => by cases he
    · exact calm_goOn rfl rfl rfl rfl
  | tagEnd v => exact calm_checkSection n v rfl
  | returned err => exact fun e he => by cases he
  | tick s =>
    simp only [exec, tickSection]
    split
    all_goals exact calm_goOn rfl rfl rfl rfl
  | bump1 s id => exact calm_goOn rfl rfl rfl rfl
  | bump2 s id => exact calm_goOn rfl rfl rfl rfl

/-! ### Steps -/

/-- The tasks of the commits in progress. -/
def busy (p : Pool (Node A) (Work A)) : Multiset (Work A) := p.those committing

/-- What a step does to the commits and the waiters: nothing, a call of `commitStepAndAdvance` finds
its step to be the current one, a waiter is registered, or a commit goes on. -/
inductive Moved (p : Pool (Node A) (Work A)) (a : Event A) (p' : Pool (Node A) (Work A)) : Prop
  | calm : p'.shared.currentStep = p.shared.currentStep → p'.shared.commits = p.shared.commits →
    p'.shared.stepWaiters = p.shared.stepWaiters → busy p' = busy p → Moved p a p'
  | check (t : ℕ) (B : BlockchainBlock) : a = .run t → p.top t = some (.check p.shared.currentStep B) →
    p'.shared = p.shared → busy p' = .commit p.shared.currentStep B ::ₘ busy p → Moved p a p'
  | register (t s : ℕ) (v : PaxosValue) : a = .run t → p.top t = some (.register s v) →
    p.shared.currentStep ≤ s → p'.shared = (registerStepWaiter p.shared s).1 →
    busy p' = busy p → Moved p a p'
  | commit (s : ℕ) (B : BlockchainBlock) (rest : Multiset (Work A)) : busy p = .commit s B ::ₘ rest →
    p'.shared = commitBlock p.shared s B → busy p' = .waiters s ::ₘ rest → Moved p a p'
  | waiters (s : ℕ) (rest : Multiset (Work A)) : busy p = .waiters s ::ₘ rest →
    p'.shared = completeStepWaiters p.shared s → busy p' = .cleanProposer s ::ₘ rest → Moved p a p'
  | cleanProposer (s : ℕ) (rest : Multiset (Work A)) : busy p = .cleanProposer s ::ₘ rest →
    p'.shared = cleanupProposerState p.shared s → busy p' = .cleanTLC s ::ₘ rest → Moved p a p'
  | cleanTLC (s : ℕ) (rest : Multiset (Work A)) : busy p = .cleanTLC s ::ₘ rest →
    p'.shared = cleanupTLCState p.shared s → busy p' = .advance ::ₘ rest → Moved p a p'
  | advance (rest : Multiset (Work A)) : busy p = .advance ::ₘ rest → p'.shared = advanceStep p.shared →
    busy p' = rest → Moved p a p'

omit [DecidableEq A] in
theorem idle_iff : Idle p ↔ busy p = 0 := those_eq_zero.symm

theorem moved_step (hs : (peer A H).step p a = some p') : Moved p a p' := by
  rcases step_cases hs with ⟨js, hjs, hshared, htasks⟩ | ⟨t, j, e, others, rfl, htop, he,
    hshared, hold, hnew⟩
  · -- a message or a call of `Tag`
    have hquiet : ∀ j ∈ js, committing j = false := fun j hj => by
      have hentry := hjs j hj
      cases j <;> first | rfl | cases hentry
    exact .calm (by rw [hshared]) (by rw [hshared]) (by rw [hshared]) (those_add htasks hquiet)
  · by_cases hj : committing j = true
    · -- a commit goes on
      have hbusy := those_cons hold hj
      cases j with
      | commit s B =>
        cases he
        exact .commit s B _ hbusy hshared (those_cons hnew rfl)
      | waiters s =>
        cases he
        exact .waiters s _ hbusy hshared (those_cons hnew rfl)
      | cleanProposer s =>
        cases he
        exact .cleanProposer s _ hbusy hshared (those_cons hnew rfl)
      | cleanTLC s =>
        cases he
        exact .cleanTLC s _ hbusy hshared (those_cons hnew rfl)
      | advance =>
        cases he
        refine .advance _ hbusy hshared (those_add hnew ?_)
        rw [List.flatten_nil, List.append_nil]
        unfold catchUp
        split
        · exact List.forall_mem_singleton.mpr rfl
        · exact List.forall_mem_nil _
      | _ => cases hj
    · have hj := Bool.eq_false_iff.mpr hj
      have hbusy : busy p = _ := those_cons_of_not hold hj
      by_cases hpass : ∃ B, j = .check p.shared.currentStep B
      · obtain ⟨B, rfl⟩ := hpass
        simp only [exec, ne_eq, not_true_eq_false, if_false] at he
        cases he
        exact .check t B rfl htop hshared ((those_cons hnew rfl).trans (by rw [hbusy]))
      by_cases hreg : ∃ s v, j = .register s v ∧ p.shared.currentStep ≤ s
      · obtain ⟨s, v, rfl, hle⟩ := hreg
        have hw : registerStepWaiter p.shared s = ((registerStepWaiter p.shared s).1,
            some p.shared.channels) := by
          unfold registerStepWaiter
          rw [if_neg (Nat.not_lt.mpr hle)]
        simp only [exec] at he
        rw [hw] at he
        cases he
        exact .register t s v rfl htop hle hshared ((those_cons_of_not hnew rfl).trans hbusy.symm)
      · have hcalm := calm_exec (H := H) hj (fun s B h hs => hpass ⟨B, hs ▸ h⟩)
          (fun s v h => Nat.lt_of_not_le fun hle => hreg ⟨s, v, h, hle⟩) e he
        exact .calm (by rw [hshared, hcalm.step]) (by rw [hshared, hcalm.commits])
          (by rw [hshared, hcalm.waiters]) ((those_add hnew hcalm.next).trans hbusy.symm)

/-! ### Steps are committed once and in order -/

instance (p : Pool (Node A) (Work A)) : Decidable (Idle p) :=
  inferInstanceAs (Decidable (∀ j ∈ p.tasks, committing j = false))

/-- **Each step is committed once, in order, and none is skipped**: the commits are those of
the steps 0, 1, 2 and so on, and when no commit is in progress, the current step has been
increased once for each of them. -/
structure InOrder (p : Pool (Node A) (Work A)) : Prop where
  order : p.shared.commits.map Prod.fst = List.range p.shared.commits.length
  advanced : Idle p → p.shared.currentStep = p.shared.commits.length

/-- The step for which `commitStepAndAdvance` has been called. -/
def called : Work A → Option ℕ
  | .check s _ => some s
  | _ => none

/-- A call of `commitStepAndAdvance` does not find its step to be the current one while
a commit is in progress. -/
def Alone (p : Pool (Node A) (Work A)) : Event A → Prop
  | .run t => (p.top t).bind called = some p.shared.currentStep → Idle p
  | _ => True

instance (p : Pool (Node A) (Work A)) : ∀ a, Decidable (Alone p a)
  | .receive .. | .tag .. => .isTrue True.intro
  | .run t => inferInstanceAs (Decidable ((p.top t).bind called = some p.shared.currentStep → Idle p))

omit [DecidableEq A] in
theorem alone_run {t : ℕ} : Alone p (.run t) ↔ ∀ B, p.top t = some (.check p.shared.currentStep B) →
    Idle p := by
  refine ⟨fun h B htop => h (by rw [htop]; rfl), fun h hcalled => ?_⟩
  obtain ⟨j, htop, hj⟩ := Option.bind_eq_some_iff.mp hcalled
  cases j with
  | check s B =>
    cases hj
    exact h B htop
  | _ => cases hj

/-- Where a commit is, and what has been committed by then. -/
def Stage (n : Node A) : Work A → Prop
  | .commit s _ => s = n.currentStep ∧ n.commits.map Prod.fst = List.range n.currentStep
  | .waiters s | .cleanProposer s | .cleanTLC s => s = n.currentStep ∧
    n.commits.map Prod.fst = List.range (n.currentStep + 1)
  | .advance => n.commits.map Prod.fst = List.range (n.currentStep + 1)
  | _ => False

/-- At most one commit is in progress. -/
def Orderly (p : Pool (Node A) (Work A)) : Prop :=
  (busy p = 0 ∧ p.shared.commits.map Prod.fst = List.range p.shared.currentStep) ∨
    ∃ j, busy p = {j} ∧ Stage p.shared j

omit [DecidableEq A] in
theorem length_of_range {k : ℕ} (h : n.commits.map Prod.fst = List.range k) : n.commits.length = k := by
  have hlen := congrArg List.length h
  rwa [List.length_map, List.length_range] at hlen

omit [DecidableEq A] in
theorem Stage.range (h : Stage n j) : (∃ B, j = .commit n.currentStep B ∧
    n.commits.map Prod.fst = List.range n.currentStep) ∨ n.commits.map Prod.fst =
      List.range (n.currentStep + 1) := by
  cases j with
  | commit s B =>
    obtain ⟨rfl, hrange⟩ := h
    exact .inl ⟨B, rfl, hrange⟩
  | waiters s => exact .inr h.2
  | cleanProposer s => exact .inr h.2
  | cleanTLC s => exact .inr h.2
  | advance => exact .inr h
  | _ => exact h.elim

omit [DecidableEq A] in
theorem Orderly.inOrder (h : Orderly p) : InOrder p := by
  rcases h with ⟨-, hrange⟩ | ⟨j, hbusy, hstage⟩
  · have hlen := length_of_range hrange
    exact ⟨by rw [hlen, hrange], fun _ => hlen.symm⟩
  · refine ⟨?_, fun hidle => ?_⟩
    · rcases hstage.range with ⟨-, -, hrange⟩ | hrange
      all_goals rw [length_of_range hrange, hrange]
    · rw [idle_iff.mp hidle] at hbusy
      exact absurd hbusy.symm (Multiset.singleton_ne_zero j)

omit [DecidableEq A] in
theorem Orderly.stage {rest : Multiset (Work A)} (h : Orderly p) (hbusy : busy p = j ::ₘ rest) :
    Stage p.shared j ∧ rest = 0 := by
  rcases h with ⟨hzero, -⟩ | ⟨j', hone, hstage⟩
  · rw [hzero] at hbusy
    exact absurd hbusy.symm (Multiset.cons_ne_zero)
  · rw [hone, ← Multiset.cons_zero, Multiset.cons_eq_cons] at hbusy
    rcases hbusy with ⟨rfl, hrest⟩ | ⟨-, cs, hcs, -⟩
    · exact ⟨hstage, hrest.symm⟩
    · exact absurd hcs.symm Multiset.cons_ne_zero

omit [DecidableEq A] in
theorem range_commitBlock {B : BlockchainBlock}
    (hrange : n.commits.map Prod.fst = List.range n.currentStep) :
    (commitBlock n n.currentStep B).commits.map Prod.fst = List.range (n.currentStep + 1) := by
  show (n.commits ++ [(n.currentStep, B)]).map Prod.fst = _
  rw [List.map_append, hrange]
  exact List.range_succ.symm

omit [DecidableEq A] in
theorem stage_congr (hstep : n'.currentStep = n.currentStep) (hcommits : n'.commits = n.commits) :
    Stage n' j ↔ Stage n j := by
  cases j <;> simp only [Stage, hstep, hcommits]

theorem orderly_step (halone : Alone p a) (hs : (peer A H).step p a = some p') (h : Orderly p) :
    Orderly p' := by
  cases moved_step hs with
  | calm hstep hcommits _ hbusy =>
    rcases h with ⟨hzero, hrange⟩ | ⟨j, hone, hstage⟩
    · exact .inl ⟨hbusy.trans hzero, by rw [hcommits, hstep, hrange]⟩
    · exact .inr ⟨j, hbusy.trans hone, (stage_congr hstep hcommits).mpr hstage⟩
  | check t B ha htop hshared hbusy =>
    subst ha
    have hzero := idle_iff.mp (alone_run.mp halone B htop)
    rcases h with ⟨-, hrange⟩ | ⟨j, hone, -⟩
    · refine .inr ⟨.commit p.shared.currentStep B, ?_, ?_⟩
      · rw [hbusy, hzero, Multiset.cons_zero]
      · rw [hshared]
        exact ⟨rfl, hrange⟩
    · rw [hzero] at hone
      exact absurd hone.symm (Multiset.singleton_ne_zero j)
  | register t s v _ _ hle hshared hbusy =>
    have hview : p'.shared.currentStep = p.shared.currentStep ∧ p'.shared.commits = p.shared.commits := by
      rw [hshared]
      unfold registerStepWaiter
      rw [if_neg (Nat.not_lt.mpr hle)]
      exact ⟨rfl, rfl⟩
    rcases h with ⟨hzero, hrange⟩ | ⟨j, hone, hstage⟩
    · exact .inl ⟨hbusy.trans hzero, by rw [hview.1, hview.2, hrange]⟩
    · exact .inr ⟨j, hbusy.trans hone, (stage_congr hview.1 hview.2).mpr hstage⟩
  | commit s B rest hold hshared hbusy =>
    obtain ⟨⟨rfl, hrange⟩, rfl⟩ := h.stage hold
    refine .inr ⟨_, hbusy, ?_⟩
    rw [hshared]
    exact ⟨rfl, range_commitBlock hrange⟩
  | waiters s rest hold hshared hbusy =>
    obtain ⟨hstage, rfl⟩ := h.stage hold
    exact .inr ⟨_, hbusy, by rw [hshared]; exact hstage⟩
  | cleanProposer s rest hold hshared hbusy =>
    obtain ⟨hstage, rfl⟩ := h.stage hold
    exact .inr ⟨_, hbusy, by rw [hshared]; exact hstage⟩
  | cleanTLC s rest hold hshared hbusy =>
    obtain ⟨hstage, rfl⟩ := h.stage hold
    exact .inr ⟨_, hbusy, by rw [hshared]; exact hstage.2⟩
  | advance rest hold hshared hbusy =>
    obtain ⟨hstage, rfl⟩ := h.stage hold
    exact .inl ⟨hbusy, by rw [hshared]; exact hstage⟩

theorem orderly_start (h : (peer A H).start p) : Orderly p := by
  obtain ⟨self, paxosID, totalPeers, width, rfl⟩ := h
  exact .inl ⟨rfl, rfl⟩

/-! ### Two calls that both find their step to be the current one -/

omit [DecidableEq A] in
theorem not_inOrder_of_again {B : BlockchainBlock}
    (hrange : n.commits.map Prod.fst = List.range (n.currentStep + 1))
    (hshared : p.shared = commitBlock n n.currentStep B) : ¬ InOrder p := by
  intro h
  have horder := h.order
  have hlen := length_of_range hrange
  rw [hshared] at horder
  simp only [commitBlock, List.map_append, hrange, List.length_append, hlen,
    List.length_singleton, List.map_cons, List.map_nil] at horder
  rw [List.range_succ (n := n.currentStep + 1)] at horder
  have hlast := List.append_cancel_left horder
  simp at hlast

theorem onTop_committing (n : Node A) (j : Work A) (e : Effect (Node A) (Work A))
    (he : exec H n j = some e) :
    (∀ j' ∈ e.next.tail, ¬ committing j' = true) ∧ ∀ stack ∈ e.spawned, ∀ j' ∈ stack.tail,
    ¬ committing j' = true := by
  by_cases hj : committing j = true
  · cases j with
    | commit s B =>
      cases he
      simp
    | waiters s =>
      cases he
      simp
    | cleanProposer s =>
      cases he
      simp
    | cleanTLC s =>
      cases he
      simp
    | advance =>
      cases he
      unfold catchUp
      split <;> simp
    | _ => cases hj
  by_cases hcheck : ∃ s B, j = .check s B
  · obtain ⟨s, B, rfl⟩ := hcheck
    simp only [exec] at he
    split_ifs at he <;> cases he <;> simp
  by_cases hreg : ∃ s v, j = .register s v
  · obtain ⟨s, v, rfl⟩ := hreg
    simp only [exec] at he
    split at he <;> cases he <;> simp
  · have hcalm := calm_exec (H := H) (Bool.eq_false_iff.mpr hj) (fun s B h => absurd ⟨s, B, h⟩ hcheck)
      (fun s v h => absurd ⟨s, v, h⟩ hreg) e he
    have hnext : ∀ j' ∈ e.next ++ e.spawned.flatten, ¬ committing j' = true :=
      fun j' hj' => Bool.eq_false_iff.mp (hcalm.next j' hj')
    refine ⟨fun j' hj' => hnext j' (List.mem_append_left _ (List.mem_of_mem_tail hj')),
      fun stack hstack j' hj' => ?_⟩
    exact hnext j' (List.mem_append_right _ (List.mem_flatten.mpr ⟨stack, hstack,
      List.mem_of_mem_tail hj'⟩))

omit [DecidableEq A] in
theorem exists_busy (htops : p.OnTop fun j => committing j = true) (hj : j ∈ busy p) :
    ∃ t, p.top t = some j :=
  OnTop.exists_top htops (mem_those.mp hj).2 (mem_those.mp hj).1

theorem goes_run {C : Pool (Node A) (Work A) → Event A → Prop} {t : ℕ} (htop : p.top t = some j)
    (hC : C p (.run t)) (he : exec H p.shared j = some e) : ∃ p', (peer A H).Goes C p p' ∧
    p'.shared = e.shared ∧
      (∀ j' ∈ e.next.head?, p'.top t = some j') ∧ ∀ t' j', t' ≠ t → p.top t' = some j' →
      p'.top t' = some j' := by
  obtain ⟨p', hrun, hrest⟩ := run_of_top htop he
  exact ⟨p', .single ⟨.run t, hC, hrun⟩, hrest⟩

omit [DecidableEq A] in
theorem alone_of_top {t : ℕ} (htop : p.top t = some j) (hj : ∀ s B, j ≠ .check s B) : Alone p (.run t) :=
  alone_run.mpr fun B h => absurd (Option.some.inj (htop.symm.trans h)) (hj _ B)

/-- Two commits of one step: sooner or later, it is committed twice. -/
theorem exists_again {t : ℕ} {B : BlockchainBlock} (h : Orderly p)
    (htops : p.OnTop fun j => committing j = true) (htop : p.top t = some (.check p.shared.currentStep B))
    (hbusy : ¬ Idle p) (hs : (peer A H).step p (.run t) = some p') : ∃ p'', (peer A H).Goes Alone p' p'' ∧
    ¬ InOrder p'' := by
  obtain ⟨j, hone, hstage⟩ := h.resolve_left fun hzero => hbusy (idle_iff.mpr hzero.1)
  obtain ⟨t', htop'⟩ := exists_busy htops (hone ▸ Multiset.mem_singleton_self j)
  have hne : t' ≠ t := by
    rintro rfl
    rw [htop] at htop'
    cases htop'
    exact hstage
  -- the call finds its step to be the current one
  have hcheck : exec H p.shared (.check p.shared.currentStep B) =
      goOn p.shared [.commit p.shared.currentStep B] := by
    simp only [exec, ne_eq, not_true_eq_false, if_false]
  obtain ⟨p₁, hrun, hshared₁, hnext₁, hkeep₁⟩ := run_of_top htop hcheck
  cases hrun.symm.trans hs
  have htop₁ := hnext₁ _ rfl
  -- it commits
  obtain ⟨p₂, hgo₂, hshared₂, -, hkeep₂⟩ := goes_run (H := H) (C := Alone) htop₁
    (alone_of_top htop₁ fun _ _ => by simp) rfl
  rw [hshared₁] at hshared₂
  rcases hstage.range with ⟨B', rfl, hrange⟩ | hrange
  · -- the other commit has not committed yet
    have htop₂ := hkeep₂ t' _ hne (hkeep₁ t' _ hne htop')
    obtain ⟨p₃, hgo₃, hshared₃, -⟩ := goes_run (H := H) (C := Alone) htop₂
      (alone_of_top htop₂ fun _ _ => by simp) rfl
    refine ⟨p₃, hgo₂.trans hgo₃, not_inOrder_of_again (n := p₂.shared) (B := B') ?_ ?_⟩
    · rw [hshared₂]
      exact range_commitBlock hrange
    · rw [hshared₃, hshared₂]
      rfl
  · -- the other commit has
    exact ⟨p₂, hgo₂, not_inOrder_of_again hrange hshared₂⟩

/-- **Each step is committed once and in order**, and the current step is increased by one for each, in
every run in which a call finds its step to be the current one only while no commit is in progress. If
that happens otherwise, there is a way to go on after which a step has been committed twice. -/
theorem commits_iff (h : (peer A H).Reach Alone p) : InOrder p ∧ ∀ a p', (peer A H).step p a = some p' →
    (Alone p a ↔ ∀ p'', (peer A H).Goes Alone p' p'' → InOrder p'') := by
  have horderly : ∀ {p}, (peer A H).Reach Alone p → Orderly p := fun hp =>
    hp.invariant (fun _ => orderly_start) fun _ _ _ => orderly_step
  have htops : p.OnTop fun j => committing j = true :=
    h.invariant (fun _ => onTop_start) fun _ _ _ _ => onTop_step onTop_committing
  refine ⟨(horderly h).inOrder, fun a p' hs => ⟨fun halone p'' hgo => ?_, fun hall => ?_⟩⟩
  · exact (horderly ((h.step halone hs).goes hgo)).inOrder
  · cases a with
    | run t =>
      refine alone_run.mpr fun B htop => ?_
      by_contra hbusy
      obtain ⟨p'', hgo, hnot⟩ := exists_again (horderly h) htops htop hbusy hs
      exact hnot (hall p'' hgo)
    | receive m src => exact True.intro
    | tag name mh => exact True.intro

/-! ### Runs of three peers -/

/-- The listen loop handles a message, in the given number of turns. -/
def handles {A : Type} (m : Message A) (src : A) (turns : ℕ) : List (Event A) :=
  .receive m (some src) :: List.replicate turns (.run 0)

/-- The block of step 0. -/
def block : BlockchainBlock := blockOf digest 0 ⟨"name", "hash"⟩ (List.replicate 32 0)

/-- The node hears the accepts of the others, and starts the goroutine that broadcasts the TLC message.
A TLC message comes first, so that a quorum is reached when the goroutine gives its own message to the
handler. Now another TLC message comes. -/
def meeting : List (Event (Fin 3)) :=
  handles (.accept 0 2 ⟨"name", "hash"⟩) 1 2 ++ handles (.accept 0 2 ⟨"name", "hash"⟩) 2 3 ++
    handles (.tlc 0 block) 1 2 ++ List.replicate 3 (.run 1) ++ handles (.tlc 0 block) 2 2

/-- A goroutine that commits before the listen loop calls `commitStepAndAdvance`. -/
theorem commits_once : ∃ p : Pool (Node (Fin 3)) (Work (Fin 3)), (peer (Fin 3) digest).Reach Alone p ∧
    p.shared.commits = [(0, block)] ∧ InOrder p := by
  have hrun : (((peer (Fin 3) digest).runOn Alone ⟨newNode 0 1 3 (.bits 64), [[]]⟩
      (meeting ++ List.replicate 6 (.run 1) ++ [.run 0])).map fun p => p.shared.commits) =
      some [(0, block)] := by
    decide +kernel
  obtain ⟨p, hp, hcommits⟩ := Option.map_eq_some_iff.mp hrun
  have hreach : (peer (Fin 3) digest).Reach Alone p := .runOn (.start ⟨0, 1, 3, .bits 64, rfl⟩) hp
  exact ⟨p, hreach, hcommits, (commits_iff hreach).1⟩

/-- **A step that is committed twice**: both calls find that their step is the current one, and then
both commit it and advance the current step. -/
theorem commits_twice : ∃ p : Pool (Node (Fin 3)) (Work (Fin 3)),
    (peer (Fin 3) digest).run ⟨newNode 0 1 3 (.bits 64), [[]]⟩
      (meeting ++ [.run 0, .run 1] ++ List.replicate 5 (.run 0) ++ List.replicate 5 (.run 1)) = some p ∧
        p.shared.commits = [(0, block), (0, block)] ∧ p.shared.currentStep = 2 ∧ ¬ InOrder p := by
  have hrun : (((peer (Fin 3) digest).run ⟨newNode 0 1 3 (.bits 64), [[]]⟩ (meeting ++ [.run 0, .run 1] ++
      List.replicate 5 (.run 0) ++ List.replicate 5 (.run 1))).map fun p => (p.shared.commits,
      p.shared.currentStep)) = some ([(0, block), (0, block)], 2) := by decide +kernel
  obtain ⟨p, hp, hafter⟩ := Option.map_eq_some_iff.mp hrun
  obtain ⟨hcommits, hstep⟩ := Prod.mk.inj hafter
  refine ⟨p, hp, hcommits, hstep, fun h => ?_⟩
  have horder := h.order
  rw [hcommits] at horder
  exact absurd horder (by decide)

end Namecoin.Paxos.Commits
