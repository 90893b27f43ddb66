import Namecoin.Paxos.Defs

/-! # TLC messages of a node

A run of a single node, whose handlers are atomic and whose delayed goroutines wake up at any later
time. What the others send is not restricted. The flag that a step's TLC message has been broadcast is
erased when the step is committed, and a goroutine that was started before may wake up after that.

* `one_tlc_iff`: **a node broadcasts at most one TLC message for each step** as long as no goroutine
  wakes up for a committed step that has had its message, and no longer;
* `late_tlc`: a goroutine that wakes up too late. -/

namespace Namecoin.Paxos.Broadcasts

open Function
open Lib.Maps Lib.ByteStrings Lib.Systems Paxos.Defs

variable {A : Type} {n n' n₁ n₂ : Node A} {s : ℕ} {B : BlockchainBlock}

/-- The message is a TLC message of the step. -/
def isTLC (s : ℕ) : Message A → Bool
  | .tlc step _ => step == s
  | _ => false

/-- How many TLC messages of the step the node has broadcast. -/
def tlcSent (n : Node A) (s : ℕ) : ℕ := n.sent.countP (isTLC s)

/-- **At most one TLC message to a step.** -/
def OneTLC (n : Node A) : Prop := ∀ s, tlcSent n s ≤ 1

/-- No goroutine wakes up for a committed step whose message has been broadcast, with the flag erased. -/
def InTime (n : Node A) : Action A → Prop
  | .job k =>
    ∀ s B, n.delayed[k]? = some (.tlc s B) → s < n.currentStep →
      n.tlcBroadcasted s = false → tlcSent n s = 0
  | _ => True

/-- No TLC message is sent, no flag is touched, and no step is committed. -/
structure Quiet (n n' : Node A) : Prop where
  step : n'.currentStep = n.currentStep
  flags : n'.tlcBroadcasted = n.tlcBroadcasted
  sent : ∀ s, tlcSent n' s = tlcSent n s

theorem Quiet.refl (n : Node A) : Quiet n n := ⟨rfl, rfl, fun _ => rfl⟩

theorem Quiet.trans (h : Quiet n n₁) (h' : Quiet n₁ n₂) : Quiet n n₂ :=
  ⟨h'.step.trans h.step, h'.flags.trans h.flags, fun s => (h'.sent s).trans (h.sent s)⟩

theorem quiet_send {m : Message A} (hm : ∀ s, isTLC s m = false) : Quiet n (n.send m) := by
  refine ⟨rfl, rfl, fun s => ?_⟩
  unfold tlcSent Node.send
  rw [List.countP_append, List.countP_singleton, hm s]
  rfl

/-! ### The invariant -/

/-- A step whose message has been broadcast is over, or its flag is set. -/
structure Counted (n : Node A) : Prop where
  once : OneTLC n
  flagged : ∀ s, tlcSent n s = 1 → s < n.currentStep ∨ n.tlcBroadcasted s = true

theorem Counted.quiet (h : Counted n) (hq : Quiet n n') : Counted n' := by
  refine ⟨fun s => ?_, fun s hs => ?_⟩
  · rw [hq.sent]
    exact h.once s
  · rw [hq.step, hq.flags]
    rw [hq.sent] at hs
    exact h.flagged s hs

theorem tlcSent_send_tlc (n : Node A) (s s' : ℕ) (B : BlockchainBlock) :
    tlcSent (n.send (.tlc s B)) s' = tlcSent n s' + if s' = s then 1 else 0 := by
  unfold tlcSent Node.send
  rw [List.countP_append, List.countP_singleton]
  by_cases he : s' = s
  · simp [isTLC, he]
  · simp [isTLC, he, Ne.symm he]

theorem Counted.send (h : Counted n) (hzero : tlcSent n s = 0)
    (hflag : s < n.currentStep ∨ n.tlcBroadcasted s = true) :
    Counted (n.send (.tlc s B)) := by
  refine ⟨fun s' => ?_, fun s' hs => ?_⟩
  · rw [tlcSent_send_tlc]
    split_ifs with he
    · rw [he, hzero]
    · exact h.once s'
  · rw [tlcSent_send_tlc] at hs
    by_cases he : s' = s
    · rw [he]
      exact hflag
    · rw [if_neg he] at hs
      exact h.flagged s' hs

theorem Counted.setFlag (h : Counted n) (s : ℕ) :
    Counted { n with tlcBroadcasted := update n.tlcBroadcasted s true } := by
  refine ⟨h.once, fun s' hs => (h.flagged s' hs).imp_right fun hf => ?_⟩
  show update n.tlcBroadcasted s true s' = true
  by_cases he : s' = s
  · rw [he, update_self]
  · rwa [update_of_ne he]

/-- What is known while steps are committed: the counts do not change, and a step is
over or its flag is set. -/
structure Committing (f : ℕ → ℕ) (s : ℕ) (n : Node A) : Prop where
  counted : Counted n
  sent : ∀ s', tlcSent n s' = f s'
  done : s < n.currentStep ∨ n.tlcBroadcasted s = true

theorem Committing.commit {f : ℕ → ℕ} {block : BlockchainBlock} (h : Committing f s n) :
    Committing f s (commitStep n n.currentStep block) := by
  have hover : ∀ s', s' < n.currentStep ∨ n.tlcBroadcasted s' = true → s' < n.currentStep + 1 ∨
      update n.tlcBroadcasted n.currentStep false s' = true := fun s' ho => by
    by_cases he : s' = n.currentStep
    · exact .inl (by omega)
    · rw [update_of_ne he]
      exact ho.imp_left fun hlt => by omega
  rw [commitStep_eq]
  exact ⟨⟨h.counted.once, fun s' hs => hover s' (h.counted.flagged s' hs)⟩, h.sent, hover s h.done⟩

theorem Committing.loop {f : ℕ → ℕ} {step : ℕ} {block : BlockchainBlock} (h : Committing f s n) :
    Committing f s (commitStepAndAdvance n step block) :=
  commit_invariant (P := fun _ _ => True) (fun _ _ hn _ => hn.commit)
    (fun _ _ _ _ => True.intro) n step block h fun _ => True.intro

theorem Counted.loop {step : ℕ} {block : BlockchainBlock} (h : Counted n) (hover : s < n.currentStep ∨
    n.tlcBroadcasted s = true) : Counted (commitStepAndAdvance n step block) :=
  (Committing.loop (f := tlcSent n) (s := s) ⟨h, fun _ => rfl, hover⟩).counted

/-! ### Handlers that send no TLC message -/

variable [DecidableEq A] {H : Bytes → Digest}

theorem quiet_handlePaxosAccept (n : Node A) (s id : ℕ) (v : PaxosValue) (src : Option A) :
    Quiet n (handlePaxosAccept H n s id v src) := by
  unfold handlePaxosAccept trackAcceptCounts
  dsimp only
  split_ifs <;> exact ⟨rfl, rfl, fun _ => rfl⟩

theorem quiet_broadcastAccept (n : Node A) (s id : ℕ) (v : PaxosValue) :
    Quiet n (broadcastAccept H n s id v) :=
  (quiet_send fun _ => rfl).trans (quiet_handlePaxosAccept ..)

theorem quiet_handlePaxosPropose (n : Node A) (s id : ℕ) (v : PaxosValue) (src : Option A) :
    Quiet n (handlePaxosPropose H n s id v src) := by
  unfold handlePaxosPropose
  split_ifs
  · exact .refl n
  · exact .refl n
  · dsimp only
    split_ifs
    · exact ⟨rfl, rfl, fun _ => rfl⟩
    · have haccept : Quiet n { n with
          acceptedID := update n.acceptedID s id
          acceptedValue := update n.acceptedValue s (some v) } := ⟨rfl, rfl, fun _ => rfl⟩
      exact haccept.trans (quiet_broadcastAccept ..)

theorem quiet_countPromise (n : Node A) (s id h : ℕ) (hv : Option PaxosValue) (src : Option A) :
    Quiet n (countPromise n s id h hv src) := by
  unfold countPromise
  cases hv with
  | none => exact ⟨rfl, rfl, fun _ => rfl⟩
  | some v =>
    dsimp only
    split_ifs <;> exact ⟨rfl, rfl, fun _ => rfl⟩

theorem quiet_handlePaxosPromise (n : Node A) (s id h : ℕ) (hv : Option PaxosValue) (src : Option A) :
    Quiet n (handlePaxosPromise H n s id h hv src) := by
  unfold handlePaxosPromise broadcastProposeAndAdvancePhase
  split_ifs
  · exact .refl n
  · dsimp only
    split_ifs
    · exact (quiet_countPromise ..).trans ((quiet_send fun _ => rfl).trans
        ((quiet_handlePaxosPropose ..).trans ⟨rfl, rfl, fun _ => rfl⟩))
    · exact quiet_countPromise ..
  · exact .refl n

theorem quiet_handlePaxosPrepare (n : Node A) (s id : ℕ) (source : Option A) :
    Quiet n (handlePaxosPrepare H n s id source) := by
  unfold handlePaxosPrepare
  split_ifs
  · exact .refl n
  · exact .refl n
  · have hq : Quiet n (Node.send { n with promisedID := update n.promisedID s id }
        (.promise source s id (n.acceptedID s) (n.acceptedValue s))) :=
      (show Quiet n { n with promisedID := update n.promisedID s id } from ⟨rfl, rfl, fun _ => rfl⟩).trans
        (quiet_send fun _ => rfl)
    unfold sendPromiseMessage
    cases source with
    | none => exact hq
    | some d =>
      dsimp only
      split_ifs
      · exact hq.trans ((quiet_handlePaxosPromise ..).trans (quiet_handlePaxosPromise ..))
      · exact hq.trans (quiet_handlePaxosPromise ..)

theorem quiet_sendPaxosPrepare (n : Node A) (s : ℕ) : Quiet n (sendPaxosPrepare H n s) :=
  (quiet_send fun _ => rfl).trans (quiet_handlePaxosPrepare ..)

theorem quiet_tick (n : Node A) (s slot total : ℕ) :
    Quiet n (handleProposerRetryTick H n s slot total).1 := by
  unfold handleProposerRetryTick
  cases retryOf n s slot total with
  | done => exact .refl n
  | nothing => exact .refl n
  | bump1 id =>
    have hbump : Quiet n (bumpProposerPhase1 n s id total slot) := ⟨rfl, rfl, fun _ => rfl⟩
    exact hbump.trans (quiet_sendPaxosPrepare ..)
  | bump2 id =>
    have hbump : Quiet n (bumpProposerPhase2 n s id total slot) := ⟨rfl, rfl, fun _ => rfl⟩
    exact hbump.trans (quiet_sendPaxosPrepare ..)

theorem quiet_sendTag (n : Node A) (s : ℕ) (v : PaxosValue) : Quiet n (sendTag H n s v) := by
  unfold sendTag registerStepWaiter
  dsimp only
  split_ifs
  · exact (quiet_sendPaxosPrepare n s).trans ⟨rfl, rfl, fun _ => rfl⟩
  · exact (quiet_sendPaxosPrepare n s).trans ⟨rfl, rfl, fun _ => rfl⟩

/-! ### Handlers that do -/

/-- The handler of a TLC message broadcasts for the current step, unless that has been done. -/
theorem Counted.handleTLC (h : Counted n) (step : ℕ) (block : BlockchainBlock) (src : Option A) :
    Counted (handleTLC n step block src) := by
  unfold Defs.handleTLC
  have hq : Quiet n (countTLC n step block src) := ⟨rfl, rfl, fun _ => rfl⟩
  have h₁ := h.quiet hq
  dsimp only
  generalize countTLC n step block src = n₁ at h₁ ⊢
  split_ifs with hlt hq₁
  · exact h
  · obtain ⟨-, rfl⟩ := hq₁
    unfold broadcastTLC
    split_ifs with hflag
    · exact h₁.loop (.inr hflag)
    · have h₂ := h₁.setFlag n₁.currentStep
      have hzero : tlcSent n₁ n₁.currentStep = 0 := by
        have hone := h₁.once n₁.currentStep
        have hf := h₁.flagged n₁.currentStep
        by_contra hne
        rcases hf (by omega) with hlt | hset
        · exact Nat.lt_irrefl _ hlt
        · exact hflag hset
      exact (h₂.send hzero (.inr (update_self ..))).loop (s := n₁.currentStep) (.inr (update_self ..))
  · exact h₁

theorem committing_handleTLC (h : Counted n) (hflag : n.tlcBroadcasted s = true) (src : Option A) :
    Committing (tlcSent n) s (handleTLC n s B src) := by
  unfold handleTLC
  dsimp only
  split_ifs with hlt hq
  · exact ⟨h, fun _ => rfl, .inr hflag⟩
  · unfold broadcastTLC
    have hflag' : (countTLC n s B src).tlcBroadcasted s = true := hflag
    rw [if_pos hflag']
    exact Committing.loop ⟨h.quiet ⟨rfl, rfl, fun _ => rfl⟩, fun _ => rfl, .inr hflag⟩
  · exact ⟨h.quiet ⟨rfl, rfl, fun _ => rfl⟩, fun _ => rfl, .inr hflag⟩

theorem Counted.broadcastTLCOnce (h : Counted n)
    (htime : s < n.currentStep → n.tlcBroadcasted s = false → tlcSent n s = 0) :
    Counted (broadcastTLCOnce n s B) := by
  unfold Defs.broadcastTLCOnce
  split_ifs with hflag
  · exact h
  · have h₁ := h.setFlag s
    obtain ⟨h₂, hsent, hover⟩ := committing_handleTLC (B := B) h₁ (update_self ..) (some n.self)
    refine h₂.send ?_ hover
    rw [hsent]
    show tlcSent n s = 0
    have hone := h.once s
    by_contra hne
    rcases h.flagged s (by omega) with hlt | hset
    · exact hne (htime hlt (Bool.eq_false_iff.mpr hflag))
    · exact hflag hset

theorem not_oneTLC_of_late (hlt : s < n.currentStep) (hflag : n.tlcBroadcasted s = false)
    (hsent : tlcSent n s ≠ 0) :
    ¬ OneTLC (broadcastTLCOnce n s B) := by
  intro hone
  have h := hone s
  unfold broadcastTLCOnce handleTLC at h
  rw [if_neg (Bool.eq_false_iff.mp hflag), if_pos hlt, tlcSent_send_tlc, if_pos rfl] at h
  have hsame : tlcSent { n with tlcBroadcasted := update n.tlcBroadcasted s true } s = tlcSent n s := rfl
  omega

theorem counted_step {a : Action A} (htime : InTime n a) (hs : nodeStep H n a = some n') (h : Counted n) :
    Counted n' := by
  cases a with
  | receive m src =>
    cases hs
    cases m with
    | prepare step id source => exact h.quiet (quiet_handlePaxosPrepare ..)
    | promise r step id k hv =>
      simp only [receive]
      split_ifs
      · exact h.quiet (quiet_handlePaxosPromise ..)
      · exact h
    | propose step id v => exact h.quiet (quiet_handlePaxosPropose ..)
    | accept step id v => exact h.quiet (quiet_handlePaxosAccept ..)
    | tlc step B => exact h.handleTLC step B src
  | job k =>
    obtain ⟨j, hk, rfl⟩ := Option.map_eq_some_iff.mp hs
    have h₁ : Counted { n with delayed := n.delayed.eraseIdx k } := h.quiet ⟨rfl, rfl, fun _ => rfl⟩
    cases j with
    | accept step id v => exact h₁.quiet (quiet_broadcastAccept ..)
    | tlc step B => exact h₁.broadcastTLCOnce (htime step B hk)
  | tag name mh =>
    simp only [nodeStep] at hs
    have hq : Quiet n (beginTag n name mh) := by
      unfold beginTag
      dsimp only
      split_ifs <;> exact ⟨rfl, rfl, fun _ => rfl⟩
    split at hs <;> cases hs <;> exact h.quiet hq
  | propose =>
    simp only [nodeStep] at hs
    split at hs
    · next v _ =>
      cases hs
      unfold proposeTag
      cases checkName n v <;> exact h.quiet ⟨rfl, rfl, fun _ => rfl⟩
    · cases hs
  | send =>
    simp only [nodeStep] at hs
    split at hs
    · cases hs
      exact h.quiet (quiet_sendTag ..)
    · cases hs
  | wake =>
    simp only [nodeStep] at hs
    split at hs
    · next v _ _ =>
      split_ifs at hs
      cases hs
      unfold wakeTag
      split <;> exact h.quiet ⟨rfl, rfl, fun _ => rfl⟩
    · cases hs
  | tick k =>
    obtain ⟨step, -, rfl⟩ := Option.map_eq_some_iff.mp hs
    have hq := quiet_tick (H := H) n step n.slot n.totalPeers
    dsimp only
    split_ifs
    · exact h.quiet (hq.trans ⟨rfl, rfl, fun _ => rfl⟩)
    · exact h.quiet hq

/-- A node on its own, with any messages to it. -/
def lone (A : Type) [DecidableEq A] (H : Bytes → Digest) : System (Node A) (Action A) where
  start n := ∃ self paxosID totalPeers width, n = newNode self paxosID totalPeers width
  step := nodeStep H

theorem counted_reach (h : (lone A H).Reach InTime n) : Counted n := by
  refine h.invariant (fun n hn => ?_) fun _ _ _ => counted_step
  obtain ⟨self, paxosID, totalPeers, width, rfl⟩ := hn
  exact ⟨fun s => Nat.zero_le 1, fun s hs => by cases hs⟩

/-- **A node broadcasts at most one TLC message for each step**, including after the step was
committed, in every run in which no goroutine wakes up too late; and after the next step it stays so
exactly if that is in time as well. -/
theorem one_tlc_iff (h : (lone A H).Reach InTime n) :
    OneTLC n ∧ ∀ a n', (lone A H).step n a = some n' → (OneTLC n' ↔ InTime n a) := by
  have hc := counted_reach h
  refine ⟨hc.once, fun a n' hs => ⟨fun hone => ?_, fun htime => (counted_step htime hs hc).once⟩⟩
  cases a with
  | job k =>
    intro s B hk hlt hflag
    by_contra hne
    obtain ⟨j, hk', rfl⟩ := Option.map_eq_some_iff.mp hs
    rw [hk] at hk'
    cases hk'
    exact not_oneTLC_of_late (n := { n with delayed := n.delayed.eraseIdx k }) hlt hflag hne hone
  | _ => exact True.intro

/-- The first of three peers hears of the accepts of the others. -/
def accepts (v : PaxosValue) : List (Action (Fin 3)) :=
  [.receive (.accept 0 2 v) (some 1), .receive (.accept 0 2 v) (some 2)]

/-- A goroutine that wakes up before the step is committed. -/
theorem one_tlc_early : ∃ (H : Bytes → Digest) (n : Node (Fin 3)), (lone (Fin 3) H).Reach InTime n ∧
    tlcSent n 0 = 1 ∧ OneTLC n := by
  have hrun : (((lone (Fin 3) digest).run (newNode 0 1 3 (.bits 64)) (accepts ⟨"name", "hash"⟩)).map
      fun n => (n.currentStep, ((nodeStep digest n (.job 0)).map fun n' => tlcSent n' 0))) =
      some (0, some 1) := by
    decide +kernel
  obtain ⟨n, hn, hafter⟩ := Option.map_eq_some_iff.mp hrun
  obtain ⟨hstep, hjob⟩ := Prod.mk.inj hafter
  obtain ⟨n', hn', hsent⟩ := Option.map_eq_some_iff.mp hjob
  have htime : InTime n (.job 0) := fun s B _ hlt => by
    rw [hstep] at hlt
    cases hlt
  have hreach : (lone (Fin 3) digest).Reach InTime n' :=
    .step (.run (.start ⟨0, 1, 3, .bits 64, rfl⟩) (by simp [accepts, InTime]) hn) htime hn'
  exact ⟨digest, n', hreach, hsent, (one_tlc_iff hreach).1⟩

/-- **A goroutine that wakes up too late**: the node has received a quorum of accepts, then a quorum of
TLC messages, on which it broadcasts its own and commits, and now the goroutine that the accepts have
started broadcasts once more. -/
theorem late_tlc : ∃ (H : Bytes → Digest) (B : BlockchainBlock) (n : Node (Fin 3)), (lone (Fin 3) H).run
      (newNode 0 1 3 (.bits 64))
    (accepts ⟨"name", "hash"⟩ ++ [.receive (.tlc 0 B) (some 1), .receive (.tlc 0 B) (some 2), .job 0]) =
      some n ∧ n.commits = [(0, B)] ∧ n.sent = [.tlc 0 B, .tlc 0 B] ∧ ¬ OneTLC n := by
  let B := blockOf digest 0 ⟨"name", "hash"⟩ (List.replicate 32 0)
  have hrun : (((lone (Fin 3) digest).run (newNode 0 1 3 (.bits 64)) (accepts ⟨"name", "hash"⟩ ++
      [.receive (.tlc 0 B) (some 1), .receive (.tlc 0 B) (some 2), .job 0])).map fun n =>
      (n.commits, n.sent)) = some ([(0, B)], [.tlc 0 B, .tlc 0 B]) := by decide +kernel
  obtain ⟨n, hn, hafter⟩ := Option.map_eq_some_iff.mp hrun
  obtain ⟨hcommits, hsent⟩ := Prod.mk.inj hafter
  refine ⟨digest, B, n, hn, hcommits, hsent, fun hone => ?_⟩
  have htwo : tlcSent n 0 = 2 := by
    unfold tlcSent
    rw [hsent]
    rfl
  have h := hone 0
  omega

end Namecoin.Paxos.Broadcasts
