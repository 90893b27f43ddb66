import Namecoin.Paxos.Threads

/-! # The proposer of a step

What the goroutines of a node do to its state as the proposer of a step, and to the tasks that are
pending for it: the proposals to broadcast, the moves to phase 2, and the retry loop.

* `calmAt_exec`: the tasks that leave the proposer of a step as it is;
* `Turned`: what a step of the node does to the proposer of a step, and `turned_step`:
  there is nothing else. -/

namespace Namecoin.Paxos.Proposers

open Function
open Lib.ByteStrings Lib.Threads Paxos.Defs Paxos.Threads

variable {A : Type} {n n' : Node A} {j : Work A} {e : Effect (Node A) (Work A)}
  {p p' : Pool (Node A) (Work A)} {a : Event A} {s b : ℕ} {v : PaxosValue}

/-! ### The proposer of a step -/

/-- What a node knows as the proposer of a step. -/
structure Proposer (A : Type) where
  phase : ℕ
  id : ℕ
  promises : ℕ → Finset A
  highest : ℕ
  value : PaxosValue

def proposer (n : Node A) (s : ℕ) : Proposer A where
  phase := n.proposerPhase s
  id := n.proposerID s
  promises := n.proposerPromises s
  highest := n.proposerHighestAcceptedID s
  value := n.proposerValue s

/-- The tasks of the proposer of a step: a proposal to broadcast, the move to
phase 2, and the retry loop. -/
def mine (s : ℕ) : Work A → Bool
  | .emit (.propose s' _ _) | .phase2 s' _ | .retry s' | .tick s' | .bump1 s' _ | .bump2 s' _ => s' == s
  | _ => false

/-- The tasks that change what the node knows as the proposer of the step, or those
that are pending for it. -/
def touches (s : ℕ) : Work A → Bool
  | .promiseLock s' .. | .phase3 s' | .cleanProposer s' | .tagInit s' _ => s' == s
  | j => mine s j

/-- A task that has nothing to do with the proposer of the step. -/
structure CalmAt (s : ℕ) (n : Node A) (e : Effect (Node A) (Work A)) : Prop where
  proposer : proposer e.shared s = proposer n s
  peers : e.shared.totalPeers = n.totalPeers
  sent : ∀ b v, .propose s b v ∈ e.shared.sent ↔ .propose s b v ∈ n.sent
  mine : ∀ j' ∈ e.next ++ e.spawned.flatten, mine s j' = false

/-- The tasks that are put on a stack have nothing to do with the proposer of the step either. -/
def Aside (s : ℕ) (js : List (Work A)) : Prop := ∀ j' ∈ js, Proposers.mine s j' = false

theorem calmAt_goOn {js : List (Work A)} (hprop : proposer n' s = proposer n s)
    (hpeers : n'.totalPeers = n.totalPeers) (hsent : n'.sent = n.sent) (hjs : Aside s js) :
    ∀ e, goOn n' js = some e → CalmAt s n e := by
  rintro e ⟨⟩
  refine ⟨hprop, hpeers, fun b v => by rw [hsent], ?_⟩
  rw [List.flatten_nil, List.append_nil]
  exact hjs

theorem calmAt_fork {js : List (Work A)} (hprop : proposer n' s = proposer n s)
    (hpeers : n'.totalPeers = n.totalPeers) (hsent : n'.sent = n.sent) (hjs : Aside s js) :
    ∀ e, fork n' js = some e → CalmAt s n e := by
  rintro e ⟨⟩
  refine ⟨hprop, hpeers, fun b v => by rw [hsent], ?_⟩
  rw [List.flatten_singleton, List.nil_append]
  exact hjs

theorem aside_of {js : List (Work A)} (h : js.all (fun j' => !mine s j') = true) : Aside s js :=
  fun j' hj' => Bool.not_eq_true' _ ▸ List.all_eq_true.mp h j' hj'

theorem calmAt_guard {c : Prop} [Decidable c] {js : List (Work A)} (hjs : Aside s js) :
    ∀ e, goOn n (if c then [] else js) = some e → CalmAt s n e := by
  refine calmAt_goOn rfl rfl rfl ?_
  split_ifs
  · exact aside_of rfl
  · exact hjs

theorem mem_send_iff {m : Message A} (hm : ∀ b v, m ≠ .propose s b v) :
    .propose s b v ∈ (n.send m).sent ↔ .propose s b v ∈ n.sent := by
  unfold Node.send
  rw [List.mem_append, List.mem_singleton, or_iff_left (hm b v).symm]

theorem proposer_setPhase {s' k : ℕ} (h : s' ≠ s) : proposer (n.setPhase s' k) s = proposer n s := by
  simp only [proposer, Node.setPhase, update_of_ne h.symm]

theorem proposer_cleanup {s' : ℕ} (h : s' ≠ s) :
    proposer (cleanupProposerState n s') s = proposer n s := by
  simp only [proposer, cleanupProposerState, update_of_ne h.symm]

theorem proposer_initialized {s' : ℕ} (h : s' ≠ s) :
    proposer (initializeProposerState n s' v) s = proposer n s := by
  simp only [proposer, initializeProposerState, update_of_ne h.symm]

theorem proposer_bump1 {s' id : ℕ} (h : s' ≠ s) :
    proposer (bumpProposerPhase1 n s' id n.totalPeers n.slot) s = proposer n s := by
  simp only [proposer, bumpProposerPhase1, update_of_ne h.symm]

theorem proposer_bump2 {s' id : ℕ} (h : s' ≠ s) :
    proposer (bumpProposerPhase2 n s' id n.totalPeers n.slot) s = proposer n s := by
  simp only [proposer, bumpProposerPhase2, update_of_ne h.symm]

variable [DecidableEq A] {H : Bytes → Digest}

theorem countPromise_frame (n : Node A) (s' id k : ℕ) (hv : Option PaxosValue) (src : Option A) :
    (countPromise n s' id k hv src).totalPeers = n.totalPeers ∧
    (countPromise n s' id k hv src).sent = n.sent ∧
      (s' ≠ s → proposer (countPromise n s' id k hv src) s = proposer n s) := by
  unfold countPromise
  cases hv with
  | none =>
    refine ⟨rfl, rfl, fun h => ?_⟩
    simp only [proposer, update₂, update_of_ne h.symm]
  | some w =>
    dsimp only
    split_ifs
    all_goals
      refine ⟨rfl, rfl, fun h => ?_⟩
      simp only [proposer, update₂, update_of_ne h.symm]

/-! ### Tasks that leave the proposer of a step as it is -/

theorem calmAt_emit {m : Message A} (hm : ∀ b v, m ≠ .propose s b v) :
    ∀ e, exec H n (.emit m) = some e → CalmAt s n e := by
  rintro e ⟨⟩
  exact ⟨rfl, rfl, fun b v => mem_send_iff hm, List.forall_mem_nil _⟩

theorem calmAt_prepareLock {s' id : ℕ} {source : Option A} :
    ∀ e, exec H n (.prepareLock s' id source) = some e → CalmAt s n e := by
  have hpromise : Aside s (sendPromise n source s' id (n.acceptedID s') (n.acceptedValue s')) := by
    unfold sendPromise
    cases source with
    | none => exact aside_of rfl
    | some d =>
      dsimp only
      split_ifs <;> exact aside_of rfl
  simp only [exec]
  split_ifs
  · exact calmAt_goOn rfl rfl rfl (aside_of rfl)
  · exact calmAt_goOn rfl rfl rfl hpromise

theorem calmAt_promiseLock {s' id k : ℕ} {hv : Option PaxosValue} {src : Option A} (hne : s' ≠ s) :
    ∀ e, exec H n (.promiseLock s' id k hv src) = some e → CalmAt s n e := by
  obtain ⟨hpeers, hsent, hprop⟩ := countPromise_frame (s := s) n s' id k hv src
  simp only [exec, promiseSection]
  split_ifs
  · exact calmAt_goOn (hprop hne) hpeers hsent (by simp [Aside, mine, hne])
  · exact calmAt_goOn (hprop hne) hpeers hsent (aside_of rfl)
  · exact calmAt_goOn rfl rfl rfl (aside_of rfl)

theorem calmAt_proposeLock {s' id : ℕ} {v : PaxosValue} {src : Option A} :
    ∀ e, exec H n (.proposeLock s' id v src) = some e → CalmAt s n e := by
  simp only [exec, proposeSection]
  split_ifs
  · exact calmAt_goOn rfl rfl rfl (aside_of rfl)
  · exact calmAt_fork rfl rfl rfl (aside_of rfl)
  · exact calmAt_goOn rfl rfl rfl (aside_of rfl)

theorem calmAt_acceptLock {s' id : ℕ} {v : PaxosValue} {src : Option A} :
    ∀ e, exec H n (.acceptLock s' id v src) = some e → CalmAt s n e := by
  simp only [exec, acceptSection, trackAcceptCounts]
  refine calmAt_goOn rfl rfl rfl ?_
  split_ifs <;> exact aside_of rfl

theorem calmAt_tlcLock {s' cur : ℕ} {B : BlockchainBlock} {src : Option A} :
    ∀ e, exec H n (.tlcLock s' B src cur) = some e → CalmAt s n e := by
  simp only [exec, tlcSection]
  refine calmAt_goOn rfl rfl rfl ?_
  split_ifs <;> exact aside_of rfl

theorem calmAt_flag {s' : ℕ} {B : BlockchainBlock} {l : Bool} :
    ∀ e, exec H n (.flag s' B l) = some e → CalmAt s n e := by
  simp only [exec, flagSection]
  split_ifs
  all_goals exact calmAt_goOn rfl rfl rfl (aside_of rfl)

theorem calmAt_advance : ∀ e, exec H n .advance = some e → CalmAt s n e := by
  refine calmAt_goOn rfl rfl rfl ?_
  unfold catchUp
  split <;> exact aside_of rfl

theorem calmAt_tagBegin {name mh : String} : ∀ e, exec H n (.tagBegin name mh) = some e →
    CalmAt s n e := by
  simp only [exec, tagSection]
  split_ifs
  all_goals exact calmAt_goOn rfl rfl rfl (aside_of rfl)

omit [DecidableEq A] in
theorem calmAt_checkSection {next : Work A} (hnext : mine s next = false) :
    ∀ e, checkSection n v next = some e → CalmAt s n e := by
  unfold checkSection
  split
  · exact calmAt_goOn rfl rfl rfl (aside_of rfl)
  · exact calmAt_goOn rfl rfl rfl (List.forall_mem_singleton.mpr hnext)

theorem calmAt_register {s' : ℕ} : ∀ e, exec H n (.register s' v) = some e → CalmAt s n e := by
  simp only [exec, registerStepWaiter]
  split_ifs
  all_goals exact calmAt_goOn rfl rfl rfl (aside_of rfl)

theorem calmAt_wait {s' ch : ℕ} : ∀ e, exec H n (.wait s' ch v) = some e → CalmAt s n e := by
  simp only [exec]
  split_ifs
  · exact fun e he => by cases he
  · exact calmAt_goOn rfl rfl rfl (aside_of rfl)

theorem calmAt_tick {s' : ℕ} (hne : s' ≠ s) : ∀ e, exec H n (.tick s') = some e → CalmAt s n e := by
  simp only [exec, tickSection]
  split
  all_goals exact calmAt_goOn rfl rfl rfl (by simp [Aside, mine, hne])

/-- **Most tasks have nothing to do with the proposer of a step.** -/
theorem calmAt_exec (hj : touches s j = false) : ∀ e, exec H n j = some e → CalmAt s n e := by
  cases j with
  | emit m =>
    refine calmAt_emit fun b v hm => ?_
    subst hm
    exact absurd hj (by simp [touches, mine])
  | prepare | promise | propose | accept | tlc | check => exact calmAt_guard (aside_of rfl)
  | commit | waiters | cleanTLC | tagRead | sendPrepare => exact calmAt_goOn rfl rfl rfl (aside_of rfl)
  | prepareLock => exact calmAt_prepareLock
  | promiseLock s' => exact calmAt_promiseLock (by simpa [touches] using hj)
  | proposeLock => exact calmAt_proposeLock
  | phase2 s' | phase3 s' =>
    exact calmAt_goOn (proposer_setPhase (by simpa [touches, mine] using hj)) rfl rfl (aside_of rfl)
  | acceptLock => exact calmAt_acceptLock
  | build => exact calmAt_fork rfl rfl rfl (aside_of rfl)
  | tlcLock => exact calmAt_tlcLock
  | flag => exact calmAt_flag
  | cleanProposer s' =>
    exact calmAt_goOn (proposer_cleanup (by simpa [touches] using hj)) rfl rfl (aside_of rfl)
  | advance => exact calmAt_advance
  | tagBegin => exact calmAt_tagBegin
  | tagCheck | tagEnd => exact calmAt_checkSection rfl
  | tagInit s' =>
    have hne : s' ≠ s := by simpa [touches] using hj
    exact calmAt_goOn (proposer_initialized hne) rfl rfl (by simp [Aside, mine, hne])
  | retry s' =>
    have hne : s' ≠ s := by simpa [touches, mine] using hj
    exact calmAt_fork rfl rfl rfl (by simp [Aside, mine, hne])
  | register => exact calmAt_register
  | wait => exact calmAt_wait
  | returned => exact fun e he => by cases he
  | tick s' => exact calmAt_tick (by simpa [touches, mine] using hj)
  | bump1 s' =>
    have hne : s' ≠ s := by simpa [touches, mine] using hj
    exact calmAt_goOn (proposer_bump1 hne) rfl rfl (by simp [Aside, mine, hne])
  | bump2 s' =>
    have hne : s' ≠ s := by simpa [touches, mine] using hj
    exact calmAt_goOn (proposer_bump2 hne) rfl rfl (by simp [Aside, mine, hne])

/-! ### Steps -/

/-- The tasks that are pending for the proposer of the step. -/
def pending (p : Pool (Node A) (Work A)) (s : ℕ) : Multiset (Work A) := p.those (mine s)

/-- What a step does to the proposer of step `s`. -/
inductive Turned (p : Pool (Node A) (Work A)) (a : Event A) (p' : Pool (Node A) (Work A)) (s : ℕ) : Prop
  | calm : proposer p'.shared s = proposer p.shared s →
    (∀ b v, .propose s b v ∈ p'.shared.sent ↔ .propose s b v ∈ p.shared.sent) →
    pending p' s = pending p s → Turned p a p' s
  | emit (b : ℕ) (v : PaxosValue) (rest : Multiset (Work A)) :
    pending p s = .emit (.propose s b v) ::ₘ rest →
    p'.shared = p.shared.send (.propose s b v) → pending p' s = rest → Turned p a p' s
  | promise (t id k : ℕ) (hv : Option PaxosValue) (src : Option A) : a = .run t →
    p.top t = some (.promiseLock s id k hv src) → shouldProcessPromise p.shared s id →
    p'.shared = countPromise p.shared s id k hv src →
    (p'.shared.quorum ≤ (p'.shared.proposerPromises s id).card ∧ pending p' s =
        .emit (.propose s id (p'.shared.proposerValue s)) ::ₘ .phase2 s id ::ₘ pending p s ∨
      ¬ p'.shared.quorum ≤ (p'.shared.proposerPromises s id).card ∧ pending p' s = pending p s) →
      Turned p a p' s
  | phase2 (b : ℕ) (rest : Multiset (Work A)) : pending p s = .phase2 s b ::ₘ rest →
    p'.shared = p.shared.setPhase s 2 → pending p' s = rest → Turned p a p' s
  | phase3 : p'.shared = p.shared.setPhase s 3 → pending p' s = pending p s → Turned p a p' s
  | clean (t : ℕ) : a = .run t → p.top t = some (.cleanProposer s) →
    p'.shared = cleanupProposerState p.shared s →
    pending p' s = pending p s → Turned p a p' s
  | init (t : ℕ) (v : PaxosValue) : a = .run t → p.top t = some (.tagInit s v) →
    p'.shared = initializeProposerState p.shared s v → pending p' s = .retry s ::ₘ pending p s →
    Turned p a p' s
  | retry (rest : Multiset (Work A)) : pending p s = .retry s ::ₘ rest → p'.shared = p.shared →
    pending p' s = .tick s ::ₘ rest → Turned p a p' s
  | tick (rest : Multiset (Work A)) : pending p s = .tick s ::ₘ rest → p'.shared = p.shared →
    (pending p' s = rest ∨ pending p' s = .tick s ::ₘ rest ∨
      p.shared.proposerPhase s ≠ 3 ∧ (pending p' s = .bump1 s (p.shared.proposerID s) ::ₘ rest ∨
        pending p' s = .bump2 s (p.shared.proposerID s) ::ₘ rest)) → Turned p a p' s
  | bump1 (t id : ℕ) (rest : Multiset (Work A)) : a = .run t → p.top t = some (.bump1 s id) →
    pending p s = .bump1 s id ::ₘ rest →
    p'.shared = bumpProposerPhase1 p.shared s id p.shared.totalPeers p.shared.slot →
    pending p' s = .tick s ::ₘ rest → Turned p a p' s
  | bump2 (t id : ℕ) (rest : Multiset (Work A)) : a = .run t → p.top t = some (.bump2 s id) →
    pending p s = .bump2 s id ::ₘ rest →
    p'.shared = bumpProposerPhase2 p.shared s id p.shared.totalPeers p.shared.slot →
    pending p' s = .tick s ::ₘ rest → Turned p a p' s

omit [DecidableEq A] in
theorem tickSection_cases (he : tickSection n s = some e) : e.shared = n ∧ e.spawned = [] ∧
    (e.next = [] ∨ e.next = [.tick s] ∨ n.proposerPhase s ≠ 3 ∧
      (e.next = [.bump1 s (n.proposerID s)] ∨ e.next = [.bump2 s (n.proposerID s)])) := by
  have hbump : ∀ id, (retryOf n s n.slot n.totalPeers = .bump1 id ∨
    retryOf n s n.slot n.totalPeers = .bump2 id) → n.proposerPhase s ≠ 3 ∧ id =
    n.proposerID s := fun id h => by
    unfold retryOf at h
    dsimp only at h
    split_ifs at h <;> simp_all
  unfold tickSection at he
  split at he
  · cases he
    exact ⟨rfl, rfl, .inl rfl⟩
  · cases he
    exact ⟨rfl, rfl, .inr (.inl rfl)⟩
  · next id h =>
    cases he
    obtain ⟨hphase, rfl⟩ := hbump id (.inl h)
    exact ⟨rfl, rfl, .inr (.inr ⟨hphase, .inl rfl⟩)⟩
  · next id h =>
    cases he
    obtain ⟨hphase, rfl⟩ := hbump id (.inr h)
    exact ⟨rfl, rfl, .inr (.inr ⟨hphase, .inr rfl⟩)⟩

theorem turned_step (hs : (peer A H).step p a = some p') (s : ℕ) : Turned p a p' s := by
  rcases step_cases hs with ⟨js, hjs, hshared, htasks⟩ | ⟨t, j, e, others, rfl, htop, he,
    hshared, hold, hnew⟩
  · -- a message or a call of `Tag`
    have hquiet : ∀ j ∈ js, mine s j = false := fun j hj => by
      have hentry := hjs j hj
      cases j <;> first | rfl | cases hentry
    exact .calm (by rw [hshared]) (fun _ _ => by rw [hshared]) (those_add htasks hquiet)
  by_cases htouch : touches s j = false
  · have hcalm := calmAt_exec (H := H) htouch e he
    have hmine : mine s j = false := by
      cases j <;> first | rfl | exact htouch
    exact .calm (by rw [hshared, hcalm.proposer]) (fun b v => by rw [hshared]; exact hcalm.sent b v)
      ((those_add hnew hcalm.mine).trans (those_cons_of_not hold hmine).symm)
  have htouch := Bool.eq_true_of_not_eq_false htouch
  cases j with
  | emit m =>
    cases m with
    | propose s' b v =>
      obtain rfl : s' = s := by simpa [touches, mine] using htouch
      cases he
      exact .emit b v _ (those_cons hold htouch) hshared (those_add hnew (List.forall_mem_nil _))
    | _ => cases htouch
  | promiseLock s' id k hv src =>
    obtain rfl : s' = s := by simpa [touches] using htouch
    have hpend : pending p s' = _ := those_cons_of_not hold rfl
    simp only [exec, promiseSection] at he
    split_ifs at he with hshould hquorum
    · cases he
      refine .promise t id k hv src rfl htop hshould hshared (.inl ⟨by rw [hshared]; exact hquorum, ?_⟩)
      refine (those_append hnew).trans ?_
      rw [hpend, hshared]
      simp [List.filter, mine]
    · cases he
      exact .promise t id k hv src rfl htop hshould hshared (.inr ⟨by rw [hshared]; exact hquorum,
        (those_add hnew (List.forall_mem_nil _)).trans hpend.symm⟩)
    · cases he
      exact .calm (by rw [hshared]) (fun _ _ => by rw [hshared])
        ((those_add hnew (List.forall_mem_nil _)).trans hpend.symm)
  | phase2 s' b =>
    obtain rfl : s' = s := by simpa [touches, mine] using htouch
    cases he
    exact .phase2 b _ (those_cons hold htouch) hshared (those_add hnew (List.forall_mem_nil _))
  | phase3 s' =>
    obtain rfl : s' = s := by simpa [touches] using htouch
    cases he
    exact .phase3 hshared ((those_add hnew (List.forall_mem_nil _)).trans
      (those_cons_of_not hold rfl).symm)
  | cleanProposer s' =>
    obtain rfl : s' = s := by simpa [touches] using htouch
    cases he
    exact .clean t rfl htop hshared ((those_add hnew (List.forall_mem_singleton.mpr rfl)).trans
      (those_cons_of_not hold rfl).symm)
  | tagInit s' v =>
    obtain rfl : s' = s := by simpa [touches] using htouch
    cases he
    refine .init t v rfl htop hshared ((those_append hnew).trans ?_)
    have hpend : pending p s' = _ := those_cons_of_not hold rfl
    rw [hpend]
    simp [List.filter, mine]
  | retry s' =>
    obtain rfl : s' = s := by simpa [touches, mine] using htouch
    cases he
    exact .retry _ (those_cons hold htouch) hshared (those_cons hnew htouch)
  | tick s' =>
    obtain rfl : s' = s := by simpa [touches, mine] using htouch
    obtain ⟨hn, hspawned, hnext⟩ := tickSection_cases he
    rw [hspawned, List.flatten_nil, List.append_nil] at hnew
    have hpend : ∀ js, e.next = js → pending p' s' = _ := fun js h => those_append (h ▸ hnew)
    refine .tick _ (those_cons hold htouch) (hshared.trans hn) ?_
    rcases hnext with hnext | hnext | ⟨hphase, hnext | hnext⟩
    · exact .inl ((hpend _ hnext).trans (by simp))
    · exact .inr (.inl ((hpend _ hnext).trans (by simp [List.filter, mine])))
    · exact .inr (.inr ⟨hphase, .inl ((hpend _ hnext).trans (by simp [List.filter, mine]))⟩)
    · exact .inr (.inr ⟨hphase, .inr ((hpend _ hnext).trans (by simp [List.filter, mine]))⟩)
  | bump1 s' id =>
    obtain rfl : s' = s := by simpa [touches, mine] using htouch
    cases he
    exact .bump1 t id _ rfl htop (those_cons hold htouch) hshared
      ((those_append hnew).trans (by simp [List.filter, mine]))
  | bump2 s' id =>
    obtain rfl : s' = s := by simpa [touches, mine] using htouch
    cases he
    exact .bump2 t id _ rfl htop (those_cons hold htouch) hshared
      ((those_append hnew).trans (by simp [List.filter, mine]))
  | _ => cases htouch

omit [DecidableEq A] in
theorem exists_untouched (j : Work A) : ∃ s, touches s j = false := by
  cases j with
  | emit m =>
    cases m with
    | propose s b v => exact ⟨s + 1, by simp [touches, mine]⟩
    | _ => exact ⟨0, rfl⟩
  | promiseLock s id k hv src => exact ⟨s + 1, by simp [touches]⟩
  | phase2 s id => exact ⟨s + 1, by simp [touches, mine]⟩
  | phase3 s => exact ⟨s + 1, by simp [touches]⟩
  | cleanProposer s => exact ⟨s + 1, by simp [touches]⟩
  | tagInit s v => exact ⟨s + 1, by simp [touches]⟩
  | retry s => exact ⟨s + 1, by simp [touches, mine]⟩
  | tick s => exact ⟨s + 1, by simp [touches, mine]⟩
  | bump1 s id => exact ⟨s + 1, by simp [touches, mine]⟩
  | bump2 s id => exact ⟨s + 1, by simp [touches, mine]⟩
  | _ => exact ⟨0, rfl⟩

theorem peers_step (hs : (peer A H).step p a = some p') : p'.shared.totalPeers = p.shared.totalPeers := by
  rcases step_cases hs with ⟨js, -, hshared, -⟩ | ⟨t, j, e, others, -, -, he, hshared, -⟩
  · rw [hshared]
  · obtain ⟨s, htouch⟩ := exists_untouched j
    rw [hshared, (calmAt_exec (H := H) htouch e he).peers]

end Namecoin.Paxos.Proposers
