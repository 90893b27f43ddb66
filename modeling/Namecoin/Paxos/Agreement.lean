import Namecoin.Paxos.Roles

/-! # Agreement

Every handler, every tick of a retry loop and every part of `Tag` keeps the invariant of the cluster.

* `agreement`: **no two nodes commit different blocks for the same step**, and at every node the block
  of a step points to the block of the step before. -/

namespace Namecoin.Paxos.Agreement

open Function
open Lib.Maps Lib.ByteStrings Lib.Systems Paxos.Defs Paxos.Cluster Paxos.Roles

variable {N : ℕ} {H : Bytes → Digest} {W W' : World N} {n n' : Node (Fin N)} {i a : Fin N} {s b h : ℕ}
  {v : PaxosValue} {hv : Option PaxosValue} {r : Option (Fin N)} {m : Message (Fin N)}
  {B : BlockchainBlock}

theorem mem_update (hm : m ∈ (update W i n a).sent) (hl : ∀ {m}, m ∈ n.sent → m ∈ n'.sent) :
    m ∈ (update W i n' a).sent := by
  by_cases ha : a = i
  · subst ha
    rw [update_self] at hm ⊢
    exact hl hm
  · rwa [update_of_ne ha] at hm ⊢

theorem mem_update_self (hm : m ∈ n.sent) : m ∈ (update W i n i).sent := by rwa [update_self]

/-! ### Handlers -/

theorem quorum_pos (n : Node (Fin N)) : 0 < n.quorum := Nat.succ_pos _

theorem fits_handlePaxosAccept (hf : Fits H W i n) (hm : Message.accept s b v ∈ (update W i n a).sent) :
    Fits H W i (handlePaxosAccept H n s b v (some a)) := by
  unfold handlePaxosAccept
  by_cases hcur : s = n.currentStep
  · rw [if_neg (not_not.mpr hcur)]
    have hf₁ := fits_track hf hm
    have hm₁ : Message.accept s b v ∈ (update W i (trackAcceptCounts n s b (some a)).1 a).sent :=
      mem_update hm fun hm => hm
    have hcur₁ : s = (trackAcceptCounts n s b (some a)).1.currentStep := hcur
    have hprop : (trackAcceptCounts n s b (some a)).1.quorum ≤ (trackAcceptCounts n s b (some a)).2.1 →
        (trackAcceptCounts n s b (some a)).1.proposerPhase s ≠ 0 := fun hq => by
      have hpos := (quorum_pos _).trans_le hq
      simp only [trackAcceptCounts] at hpos ⊢
      split_ifs at hpos with hown
      · rw [hown.1]
        decide
      · exact absurd hpos (Nat.lt_irrefl 0)
    have hcount : (trackAcceptCounts n s b (some a)).2.2.1 =
        ((trackAcceptCounts n s b (some a)).1.acceptCount s b).card := by
      simp only [trackAcceptCounts, update₂_apply, and_self, if_true]
    dsimp only
    rw [hcount]
    generalize trackAcceptCounts n s b (some a) = t at hf₁ hm₁ hcur₁ hprop ⊢
    obtain ⟨n₁, propCnt, globalCnt, tlcAlready⟩ := t
    dsimp only at hf₁ hm₁ hcur₁ hprop ⊢
    -- the proposer may be done
    have hf₂ : Fits H W i (if n₁.quorum ≤ propCnt then n₁.setPhase s 3 else n₁) := by
      split_ifs with hq
      · exact fits_done hf₁ (hprop hq)
      · exact hf₁
    have hsame : (if n₁.quorum ≤ propCnt then n₁.setPhase s 3 else n₁).sent = n₁.sent ∧
        (if n₁.quorum ≤ propCnt then n₁.setPhase s 3 else n₁).currentStep = n₁.currentStep ∧
        (if n₁.quorum ≤ propCnt then n₁.setPhase s 3 else n₁).acceptCount = n₁.acceptCount := by
      split_ifs <;> exact ⟨rfl, rfl, rfl⟩
    generalize (if n₁.quorum ≤ propCnt then n₁.setPhase s 3 else n₁) = n₂ at hf₂ hsame ⊢
    obtain ⟨hsent, hstep, haccepts⟩ := hsame
    split_ifs with hq
    · have hm₂ : Message.accept s b v ∈ (update W i n₂ a).sent := mem_update hm₁ fun hm => hsent ▸ hm
      obtain ⟨hnamed, hdec⟩ := decided_of_count hf₂ hm₂ (haccepts ▸ hq.1)
      have hs : s = n₂.currentStep := hcur₁.trans hstep.symm
      exact fits_delay hf₂ (hs ▸ legit_buildBlock hf₂.node.learner hnamed (hs ▸ hdec))
    · exact hf₂
  · rw [if_pos hcur]
    exact hf

theorem fits_broadcastAccept (hf : Fits H W i (n.send (.accept s b v))) :
    Fits H W i (broadcastAccept H n s b v) := by
  have hself : n.self = i := hf.node.config.self
  subst hself
  exact fits_handlePaxosAccept hf (mem_update_self (mem_send.mpr (.inr rfl)))

theorem fits_handlePaxosPropose (hf : Fits H W i n) (hm : Message.propose s b v ∈ (update W i n a).sent)
    (src : Option (Fin N)) : Fits H W i (handlePaxosPropose H n s b v src) := by
  have hp : Proposed (update W i n) s b v := ⟨a, hm⟩
  have hpos : 0 < b := ((hf a).proposer.propose hm).1.1
  unfold handlePaxosPropose
  split_ifs with hcur hid
  · exact hf
  · exact hf
  · dsimp only
    split_ifs with hsrc
    · exact fits_vote_delayed hf (not_not.mp hid) hpos hp
    · have hf₁ := fits_vote_sent hf (not_not.mp hid) hpos hp
      exact fits_broadcastAccept hf₁

theorem broadcastPropose_eq (n : Node (Fin N)) (s b : ℕ) (v : PaxosValue) :
    broadcastProposeAndAdvancePhase H n s b v =
      handlePaxosPropose H ((n.send (.propose s b v)).setPhase s 2) s b v (some n.self) := by
  unfold broadcastProposeAndAdvancePhase handlePaxosPropose
  simp only [Node.send, Node.setPhase]
  split_ifs <;> rfl

theorem fits_handlePaxosPromise (hf : Fits H W i n)
    (hm : Message.promise r s b h hv ∈ (update W i n a).sent) :
    Fits H W i (handlePaxosPromise H n s b h hv (some a)) := by
  unfold handlePaxosPromise
  by_cases hcur : s = n.currentStep
  · rw [if_neg (not_not.mpr hcur)]
    by_cases hshould : shouldProcessPromise n s b
    · rw [if_neg (not_not.mpr hshould)]
      have hf₁ := fits_countPromise hf hshould.2 hm
      obtain ⟨k, x, -, he⟩ := countPromise_eq n s b h hv (some a)
      have hcur₁ : s = (countPromise n s b h hv (some a)).currentStep := by rw [he]; exact hcur
      have hphase₁ : (countPromise n s b h hv (some a)).proposerPhase s = 1 := by rw [he]; exact hshould.1
      have hid₁ : (countPromise n s b h hv (some a)).proposerID s = b := by rw [he]; exact hshould.2
      generalize countPromise n s b h hv (some a) = n₁ at hf₁ hcur₁ hphase₁ hid₁ ⊢
      dsimp only
      split_ifs with hq
      · rw [broadcastPropose_eq]
        exact fits_handlePaxosPropose (fits_propose hf₁ hcur₁ hphase₁ hid₁ hq)
          (mem_update_self (mem_send.mpr (.inr rfl))) _
      · exact hf₁
    · rw [if_pos hshould]
      exact hf
  · rw [if_pos hcur]
    exact hf

theorem propose_self (n : Node (Fin N)) (s b : ℕ) (v : PaxosValue) :
    (handlePaxosPropose H n s b v (some n.self)).sent = n.sent ∧
      (handlePaxosPropose H n s b v (some n.self)).tag = n.tag := by
  unfold handlePaxosPropose
  dsimp only
  rw [if_pos rfl]
  split_ifs <;> exact ⟨rfl, rfl⟩

theorem later_handlePaxosPromise (n : Node (Fin N)) (s b h : ℕ) (hv : Option PaxosValue)
    (src : Option (Fin N)) :
    (∀ m ∈ n.sent, m ∈ (handlePaxosPromise H n s b h hv src).sent) ∧
      (handlePaxosPromise H n s b h hv src).tag = n.tag := by
  unfold handlePaxosPromise
  split_ifs
  · exact ⟨fun _ hm => hm, rfl⟩
  · obtain ⟨k, x, -, he⟩ := countPromise_eq n s b h hv src
    have hsent : (countPromise n s b h hv src).sent = n.sent := by rw [he]
    have htag : (countPromise n s b h hv src).tag = n.tag := by rw [he]
    dsimp only
    generalize countPromise n s b h hv src = n₁ at hsent htag ⊢
    split_ifs
    · rw [broadcastPropose_eq]
      obtain ⟨h₁, h₂⟩ := propose_self (H := H)
        ((n₁.send (.propose s b (n₁.proposerValue s))).setPhase s 2) s b (n₁.proposerValue s)
      exact ⟨fun m hm => h₁ ▸ mem_send.mpr (.inl (hsent ▸ hm)), h₂.trans htag⟩
    · exact ⟨fun m hm => hsent ▸ hm, htag⟩
  · exact ⟨fun _ hm => hm, rfl⟩

theorem fits_handlePaxosPrepare (hf : Fits H W i n) (s b : ℕ) (src : Option (Fin N)) :
    Fits H W i (handlePaxosPrepare H n s b src) := by
  unfold handlePaxosPrepare
  split_ifs with hcur hle
  · exact hf
  · exact hf
  · have hself : n.self = i := hf.node.config.self
    have hf₁ := fits_promise (r := src) hf (Nat.lt_of_not_le hle)
    have hm₁ : Message.promise src s b (n.acceptedID s) (n.acceptedValue s) ∈ (Node.send
      { n with promisedID := update n.promisedID s b }
      (.promise src s b (n.acceptedID s) (n.acceptedValue s))).sent :=
        mem_send.mpr (.inr rfl)
    unfold sendPromiseMessage
    have hself₁ : (Node.send { n with promisedID := update n.promisedID s b }
      (.promise src s b (n.acceptedID s) (n.acceptedValue s))).self = i := hself
    dsimp only
    generalize Node.send { n with promisedID := update n.promisedID s b }
      (.promise src s b (n.acceptedID s) (n.acceptedValue s)) = n₁ at hf₁ hm₁ hself₁ ⊢
    cases src with
    | none => exact hf₁
    | some d =>
      have hf₂ := fits_handlePaxosPromise hf₁ (mem_update_self hm₁)
      dsimp only
      rw [hself₁]
      split_ifs
      · have hself₂ := hf₂.node.config.self
        rw [hself₂]
        exact fits_handlePaxosPromise hf₂ (mem_update_self ((later_handlePaxosPromise ..).1 _ hm₁))
      · exact hf₂

theorem fits_sendPaxosPrepare (hf : Fits H W i n) (s : ℕ) : Fits H W i (sendPaxosPrepare H n s) :=
  fits_handlePaxosPrepare (fits_prepare hf _) _ _ _

/-! ### Retries and commits -/

theorem owns_next (hc : Config i n) (s current : ℕ) :
    current < nextOf n s current n.totalPeers n.slot ∧
    Owns n (nextOf n s current n.totalPeers n.slot) := by
  have hslot : n.slot = n.paxosID := (owns_paxosID hc).2
  unfold nextOf Owns
  rw [hslot, hc.totalPeers, hc.width]
  have hid : 0 < n.paxosID ∧ n.paxosID ≤ N := by
    rw [hc.paxosID]
    exact ⟨Nat.succ_pos _, i.isLt⟩
  obtain ⟨hlt, hs⟩ := nextProposalID_spec current (max current (n.promisedID s)) hid.1 hid.2
  exact ⟨hlt, by omega, hs⟩

theorem retryOf_bump {id slot total : ℕ} :
    (retryOf n s slot total = .bump1 id → n.proposerPhase s = 1 ∧ n.proposerID s = id) ∧
      (retryOf n s slot total = .bump2 id → n.proposerPhase s = 2 ∧ n.proposerID s = id) := by
  unfold retryOf
  dsimp only
  generalize (if 0 < n.promisedID s ∧ 0 < n.totalPeers then slotOf (n.promisedID s) total else 0) = leader
  split_ifs with h₁ h₂ h₃ h₄
  · simp
  · simp
  · exact ⟨fun he => ⟨h₃.1, Retry.bump1.inj he⟩, fun he => (by cases he)⟩
  · exact ⟨fun he => (by cases he), fun he => ⟨h₄.1, Retry.bump2.inj he⟩⟩
  · simp

theorem fits_tick (hf : Fits H W i n) (s : ℕ) :
    Fits H W i (handleProposerRetryTick H n s n.slot n.totalPeers).1 := by
  unfold handleProposerRetryTick
  cases hr : retryOf n s n.slot n.totalPeers with
  | done => exact hf
  | nothing => exact hf
  | bump1 id =>
    have hid := retryOf_bump.1 hr
    obtain ⟨hlt, howns⟩ := owns_next hf.node.config s id
    exact fits_sendPaxosPrepare (fits_bump hf (by omega) (hid.2 ▸ hlt) howns (by omega) fun _ _ => rfl) s
  | bump2 id =>
    have hid := retryOf_bump.2 hr
    obtain ⟨hlt, howns⟩ := owns_next hf.node.config s id
    refine fits_sendPaxosPrepare (fits_bump hf (by omega) (hid.2 ▸ hlt) howns ?_ fun s' hs =>
      update_of_ne hs _ _) s
    rw [update_self]
    decide

theorem legit_next (hB : Legit H (update W i n) s B) (hl : NodeLater n n') :
    Legit H (update W i n') s B := by
  have hworld := worldLater_update (W := update W i n) (i := i) (n := n') (by rwa [update_self])
  rw [update_idem] at hworld
  exact hB.later hworld

/-- The invariant holds with the node in the given state, and the block is that of the step. -/
def FitsWith (H : Bytes → Digest) (W : World N) (i : Fin N) (s : ℕ) (B : BlockchainBlock)
    (n : Node (Fin N)) : Prop :=
  Fits H W i n ∧ Legit H (update W i n) s B

theorem fits_commitStepAndAdvance (hf : FitsWith H W i s B n) :
    FitsWith H W i s B (commitStepAndAdvance n s B) := by
  refine commit_invariant (P := fun n B => Legit H (update W i n) n.currentStep B)
    (fun n' B' hf' hB' => ?_) (fun n' B' hf' hnext => hf'.1.node.learner.block ?_) n s B hf fun he =>
    he ▸ hf.2
  · refine ⟨fits_commit hf'.1 rfl hB', legit_next hf'.2 ?_⟩
    rw [commitStep_eq]
    exact nodeLater_of_eq (fun hm => hm) Iff.rfl rfl
  · unfold nextBlock at hnext
    split_ifs at hnext
    exact hnext

theorem fits_flag (hf : FitsWith H W i s B n) (flags : ℕ → Bool) :
    FitsWith H W i s B { n with tlcBroadcasted := flags } :=
  ⟨fits_broadcasted hf.1 flags, legit_next hf.2 (nodeLater_of_eq (fun hm => hm) Iff.rfl rfl)⟩

theorem fits_sendTLC (hf : FitsWith H W i s B n) : FitsWith H W i s B (n.send (.tlc s B)) :=
  ⟨fits_tlc hf.1 hf.2, legit_next hf.2 (nodeLater_send (by simp))⟩

theorem fits_handleTLC (hf : FitsWith H W i s B n) (src : Option (Fin N)) :
    FitsWith H W i s B (handleTLC n s B src) := by
  have hf₁ : FitsWith H W i s B (countTLC n s B src) :=
    ⟨fits_countTLC hf.1 hf.2 src, legit_next hf.2 (nodeLater_of_eq (fun hm => hm) Iff.rfl rfl)⟩
  unfold handleTLC
  dsimp only
  split_ifs
  · exact hf
  · refine fits_commitStepAndAdvance ?_
    unfold broadcastTLC
    split_ifs
    · exact hf₁
    · exact fits_sendTLC (fits_flag hf₁ _)
  · exact hf₁

theorem fits_broadcastTLCOnce (hf : FitsWith H W i s B n) :
    FitsWith H W i s B (broadcastTLCOnce n s B) := by
  unfold broadcastTLCOnce
  split_ifs
  · exact hf
  · exact fits_sendTLC (fits_handleTLC (fits_flag hf _) _)

theorem fits_runJob {k : ℕ} {j : Job} (hf : Fits H W i n) (hk : n.delayed[k]? = some j) :
    Fits H W i (runJob H { n with delayed := n.delayed.eraseIdx k } j) := by
  cases j with
  | accept s b v => exact fits_broadcastAccept (fits_release hf hk)
  | tlc s B =>
    have hB := hf.node.learner.delayed (List.mem_of_getElem? hk)
    have hvoted : ∀ {s' b' v'}, Voted { n with delayed := n.delayed.eraseIdx k } s' b' v' ↔
        Voted n s' b' v' :=
      or_congr Iff.rfl (mem_eraseIdx_of_ne hk (by simp))
    exact (fits_broadcastTLCOnce ⟨fits_take hf hk,
      legit_next hB (nodeLater_of_eq (fun hm => hm) hvoted rfl)⟩).1

/-! ### `Tag` -/

theorem fits_beginTag (hf : Fits H W i n) (hclear : Clear n) (name mh : String) :
    Fits H W i (beginTag n name mh) := by
  unfold beginTag
  dsimp only
  split_ifs with h₁ h₂ h₃
  · exact fits_tag hf hclear (.inr ⟨_, rfl⟩)
  · exact fits_tag hf hclear (.inr ⟨_, rfl⟩)
  · exact fits_tag hf hclear (.inr ⟨_, rfl⟩)
  · rw [not_or] at h₁
    exact fits_tag hf hclear (.inl ⟨_, rfl, named_trimSpace h₁.1, named_trimSpace h₁.2⟩)

theorem fits_proposeTag (hf : Fits H W i n) (ht : n.tag = .looping v) : Fits H W i (proposeTag n v) := by
  unfold proposeTag
  cases checkName n v with
  | none => exact fits_initialize hf ht
  | some err =>
    refine fits_tag hf (clear_of_tag hf.node.proposer ?_ ?_) (.inr ⟨_, rfl⟩)
    · intro s v' _ he
      rw [ht] at he
      cases he
    · intro s v' ch _ he
      rw [ht] at he
      cases he

theorem tag_sendPaxosPrepare (n : Node (Fin N)) (s : ℕ) : (sendPaxosPrepare H n s).tag = n.tag := by
  unfold sendPaxosPrepare handlePaxosPrepare sendPromiseMessage
  dsimp only
  split_ifs
  · rfl
  · rfl
  · rw [(later_handlePaxosPromise ..).2, (later_handlePaxosPromise ..).2]
    rfl
  · rw [(later_handlePaxosPromise ..).2]
    rfl

theorem fits_sendTag (hf : Fits H W i n) (ht : n.tag = .sending s v) : Fits H W i (sendTag H n s v) := by
  have hf₁ := fits_sendPaxosPrepare hf s
  have htag₁ : (sendPaxosPrepare H n s).tag = .sending s v := (tag_sendPaxosPrepare n s).trans ht
  unfold sendTag registerStepWaiter
  dsimp only
  generalize sendPaxosPrepare H n s = n₁ at hf₁ htag₁ ⊢
  split_ifs with hlt
  · dsimp only
    exact fits_wait (n := n₁) hf₁ htag₁ fun hc => absurd hlt (Nat.not_lt.mpr hc)
  · dsimp only
    refine fits_wait (n := n₁) hf₁ htag₁ fun _ => ⟨_, rfl, ?_⟩
    rw [update_self]
    exact List.mem_append_right _ (List.mem_singleton.mpr rfl)

theorem fits_wakeTag {ch : Option ℕ} (hf : Fits H W i n) (ht : n.tag = .waiting s v ch)
    (hclosed : ∀ c ∈ ch, c ∉ n.stepWaiters s) : Fits H W i (wakeTag n v) := by
  have hp := hf.node.proposer
  have hpast : n.currentStep ≤ s → False := fun hc => by
    obtain ⟨c, he, hmem⟩ := hp.waiting ht hc
    exact hclosed c (he ▸ rfl) hmem
  have hclear : Clear n := by
    refine clear_of_tag hp (fun s' v' _ he => ?_) fun s' v' ch' hc he => ?_
    · rw [ht] at he
      cases he
    · rw [ht] at he
      cases he
      exact hpast hc
  unfold wakeTag
  cases checkName n v with
  | none => exact fits_tag hf hclear (.inl ⟨v, rfl, hp.value (.inr ⟨s, .inr ⟨ch, ht⟩⟩)⟩)
  | some err => exact fits_tag hf hclear (.inr ⟨_, rfl⟩)

/-! ### Every step -/

theorem allOK_start (h : (cluster H N).start W) : AllOK H W := by
  intro i
  rw [h i]
  have hvoted : ∀ {s b v}, ¬ Voted (newNode i (i + 1) N .unbounded) s b v := fun hv => by
    rcases hv with hv | hv <;> cases hv
  refine ⟨⟨rfl, rfl, rfl, rfl⟩, ⟨fun hv => absurd hv hvoted, fun _ => hvoted, fun hs => ?_, fun hm => ?_⟩,
    ⟨fun hm => ?_, fun hm => ?_, fun _ hs => absurd rfl hs, fun _ hs => absurd rfl hs,
    fun ht => ?_, fun ht => ?_⟩, ⟨fun ha => ?_, fun hm => ?_, fun hm => ?_, fun hb => ?_, fun hm => ?_,
    fun _ => rfl, fun hc => ?_⟩⟩
  · cases hs
  · cases hm
  · cases hm
  · cases hm
  · cases ht
  · rcases ht with ht | ⟨s, ht | ⟨ch, ht⟩⟩ <;> cases ht
  · exact absurd ha (Finset.notMem_empty _)
  · cases hm
  · cases hm
  · cases hb
  · cases hm
  · cases hc

/-- **Every step of a node keeps the invariant.** -/
theorem fits_nodeStep {act : Action (Fin N)} (hf : Fits H W i n)
    (hallow : allowed (update W i n) act = true) (hs : nodeStep H n act = some n') : Fits H W i n' := by
  have hidle : (∀ s v, n.tag ≠ .sending s v) → (∀ s v ch, n.tag ≠ .waiting s v ch) → Clear n :=
      fun h₁ h₂ =>
    clear_of_tag hf.node.proposer (fun s v _ => h₁ s v) fun s v ch _ => h₂ s v ch
  cases act with
  | receive m src =>
    cases hs
    cases src with
    | none => cases hallow
    | some a =>
      have hm : m ∈ (update W i n a).sent := of_decide_eq_true hallow
      cases m with
      | prepare s b source => exact fits_handlePaxosPrepare hf s b source
      | promise r s b h hv =>
        simp only [receive]
        split_ifs
        · exact fits_handlePaxosPromise hf hm
        · exact hf
      | propose s b v => exact fits_handlePaxosPropose hf hm _
      | accept s b v => exact fits_handlePaxosAccept hf hm
      | tlc s B => exact (fits_handleTLC ⟨hf, (hf a).learner.sent hm⟩ _).1
  | job k =>
    obtain ⟨j, hk, rfl⟩ := Option.map_eq_some_iff.mp hs
    exact fits_runJob hf hk
  | tag name mh =>
    simp only [nodeStep] at hs
    split at hs
    · next ht =>
      cases hs
      exact fits_beginTag hf (hidle (by simp [ht]) (by simp [ht])) name mh
    · next err ht =>
      cases hs
      exact fits_beginTag hf (hidle (by simp [ht]) (by simp [ht])) name mh
    · cases hs
  | propose =>
    simp only [nodeStep] at hs
    split at hs
    · next v ht =>
      cases hs
      exact fits_proposeTag hf ht
    · cases hs
  | send =>
    simp only [nodeStep] at hs
    split at hs
    · next s v ht =>
      cases hs
      exact fits_sendTag hf ht
    · cases hs
  | wake =>
    simp only [nodeStep] at hs
    split at hs
    · next s v ch ht =>
      split_ifs at hs with hclosed
      cases hs
      exact fits_wakeTag hf ht hclosed
    · cases hs
  | tick k =>
    obtain ⟨s, hk, rfl⟩ := Option.map_eq_some_iff.mp hs
    have hf' := fits_tick hf s
    dsimp only
    split_ifs
    · exact hf'.proposer rfl rfl rfl fun _ ok => ok.proposer.frame rfl fun hm => hm
    · exact hf'

theorem allOK_step {act : Fin N × Action (Fin N)} (hs : (cluster H N).step W act = some W')
    (h : AllOK H W) :
    AllOK H W' := by
  obtain ⟨i, act⟩ := act
  unfold cluster at hs
  dsimp only at hs
  split_ifs at hs with hallow
  obtain ⟨n', hn', rfl⟩ := Option.map_eq_some_iff.mp hs
  have hf : Fits H W i (W i) := fits_self.mpr h
  exact fits_nodeStep hf (by rwa [update_eq_self]) hn'

/-- **Agreement.** In every run of `N` nodes, with messages lost, duplicated and reordered, no two
nodes commit different blocks for the same step, and at every node the block committed for a step has
as its previous hash the hash of the block committed for the step before. -/
theorem agreement (H : Bytes → Digest) (N : ℕ) (W : World N)
    (h : (cluster H N).Reach (fun _ _ => True) W) :
    (∀ i j s B B', (s, B) ∈ (W i).commits → (s, B') ∈ (W j).commits → B = B') ∧
      ∀ i s B B', (s, B) ∈ (W i).commits → (s + 1, B') ∈ (W i).commits → B'.prevHash = B.hash := by
  have hall : AllOK H W := h.invariant (fun _ => allOK_start) fun _ _ _ _ => allOK_step
  refine ⟨fun i j s B B' hB hB' => ?_, fun i s B B' hB hB' => ?_⟩
  · exact legit_unique hall ((hall i).learner.commits hB) ((hall j).learner.commits hB')
  · exact legit_prevHash hall ((hall i).learner.commits hB) ((hall i).learner.commits hB')

/-- A step of two nodes: the first one tags a name, and both commit it. -/
def round (i j : Fin 2) (s id : ℕ) (v : PaxosValue) (B : BlockchainBlock) :
    List (Fin 2 × Action (Fin 2)) :=
  [(i, .tag v.filename v.metahash), (i, .propose), (i, .send),
    (j, .receive (.prepare s id (some i)) (some i)),
    (i, .receive (.promise (some i) s id 0 none) (some j)), (i, .job 0),
    (j, .receive (.propose s id v) (some i)), (i, .receive (.accept s id v) (some j)),
    (j, .receive (.accept s id v) (some i)), (i, .job 0), (j, .job 0), (i, .receive (.tlc s B) (some j)),
    (j, .receive (.tlc s B) (some i))]

/-- Two names, tagged by two nodes one after the other. -/
theorem agreement_two_steps : ∃ (H : Bytes → Digest) (W : World 2) (B B' : BlockchainBlock),
    (cluster H 2).Reach (fun _ _ => True) W ∧ (∀ i, (W i).commits = [(0, B), (1, B')]) ∧
    B'.prevHash = B.hash := by
  let B := blockOf digest 0 ⟨"first", "a"⟩ (List.replicate 32 0)
  let B' := blockOf digest 1 ⟨"second", "b"⟩ B.hash
  have hrun : (((cluster digest 2).run (fun i => newNode i (i + 1) 2 .unbounded)
      (round 0 1 0 1 ⟨"first", "a"⟩ B ++ round 1 0 1 2 ⟨"second", "b"⟩ B')).map fun W =>
      ((W 0).commits, (W 1).commits)) = some ([(0, B), (1, B')], [(0, B), (1, B')]) := by decide +kernel
  obtain ⟨W, hW, hcommits⟩ := Option.map_eq_some_iff.mp hrun
  obtain ⟨h₀, h₁⟩ := Prod.mk.inj hcommits
  have hreach : (cluster digest 2).Reach (fun _ _ => True) W :=
    System.Reach.run (.start fun _ => rfl) (fun _ _ _ => True.intro) hW
  refine ⟨digest, W, B, B', hreach, Fin.forall_fin_two.mpr ⟨h₀, h₁⟩,
    (agreement digest 2 W hreach).2 0 0 B B' ?_ ?_⟩
  · rw [h₀]
    exact List.mem_cons_self
  · rw [h₀]
    exact List.mem_cons_of_mem _ (List.mem_singleton.mpr rfl)

end Namecoin.Paxos.Agreement
