import Namecoin.Paxos.Cluster

/-! # The parts of the handlers

Each part of a handler keeps the invariant of the cluster: an acceptor promises and votes, a
proposer counts promises, proposes and takes a new number, a learner counts accepts and TLC
messages and commits a step.

* `fits_votes`, `fits_promise`: what acceptors do;
* `fits_propose`: **the value of a proposal is safe**, by the promises that have been counted;
* `decided_of_count`: a quorum of accepts with one number decides the value;
* `fits_commit`: a step is committed with its block. -/

namespace Namecoin.Paxos.Roles

open Function
open Lib.Maps Lib.ByteStrings Lib.Ballots State.Commands Paxos.Defs Paxos.Cluster

variable {N : ℕ} {H : Bytes → Digest} {W : World N} {n n' : Node (Fin N)} {i a : Fin N} {s b h : ℕ}
  {v : PaxosValue} {hv : Option PaxosValue} {r : Option (Fin N)} {m : Message (Fin N)}
  {B : BlockchainBlock}

/-! ### Messages and maps -/

theorem mem_send {m' : Message (Fin N)} : m' ∈ (n.send m).sent ↔ m' ∈ n.sent ∨ m' = m := by
  rw [Node.send, List.mem_append, List.mem_singleton]

theorem voted_send (hm : ∀ s b v, m ≠ .accept s b v) {s b : ℕ} {v : PaxosValue} :
    Voted (n.send m) s b v ↔ Voted n s b v := by
  refine or_congr ?_ Iff.rfl
  rw [mem_send]
  exact or_iff_left fun he => hm s b v he.symm

theorem nodeLater_send (hm : ∀ s b v, m ≠ .accept s b v) : NodeLater n (n.send m) :=
  nodeLater_of_eq (fun h => mem_send.mpr (.inl h)) (voted_send hm) rfl

theorem update₂_apply {α : Type} (f : ℕ → ℕ → α) (i j : ℕ) (x : α) (i' j' : ℕ) :
    update₂ f i j x i' j' = if i' = i ∧ j' = j then x else f i' j' := by
  unfold update₂
  by_cases hi : i' = i
  · subst hi
    rw [update_self]
    by_cases hj : j' = j
    · subst hj
      simp
    · simp [hj]
  · simp [hi]

theorem mem_addSource {a' : Fin N} {S : Finset (Fin N)} : a' ∈ addSource (some a) S ↔ a' = a ∨ a' ∈ S :=
  Finset.mem_insert

/-! ### Acceptors -/

/-- A vote for a proposed value in the ballot that has been promised. -/
structure Votes (n n' : Node (Fin N)) (s b : ℕ) (v : PaxosValue) : Prop where
  promised : b = n.promisedID s
  voted : ∀ {s' b' v'}, Voted n' s' b' v' ↔ Voted n s' b' v' ∨ s' = s ∧ b' = b ∧ v' = v
  view : acceptorView n' = (n.promisedID, update n.acceptedID s b, update n.acceptedValue s (some v))
  sent : ∀ {m}, m ∈ n'.sent ↔ m ∈ n.sent ∨ m = .accept s b v ∧ m ∈ n'.sent

theorem Votes.later (h : Votes n n' s b v) : NodeLater n n' where
  sent hm := h.sent.mpr (.inl hm)
  voted hvote := h.voted.mpr (.inl hvote)
  promised s' := (congrFun (congrArg Prod.fst h.view) s').ge
  fresh hvote := by
    rcases h.voted.mp hvote with hold | ⟨rfl, rfl, -⟩
    · exact .inl hold
    · exact .inr h.promised.ge

theorem Votes.acceptor (h : Votes n n' s b v) (ha : Acceptor W n) (hpos : 0 < b) (hp : Proposed W s b v) :
    Acceptor W n' := by
  obtain ⟨hpromised, hrest⟩ := Prod.mk.inj h.view
  obtain ⟨hid, hval⟩ := Prod.mk.inj hrest
  refine ⟨fun hvote => ?_, fun {s' b' v'} hnone hvote => ?_, fun {s' v'} hsome => ?_,
    fun {r s' b' k hv} hm => ?_⟩
  · rw [hpromised]
    rcases h.voted.mp hvote with hold | ⟨rfl, rfl, rfl⟩
    · exact ha.voted hold
    · exact ⟨hpos, h.promised.le, hp⟩
  · rw [hval] at hnone
    by_cases hs : s' = s
    · rw [hs, update_self] at hnone
      cases hnone
    · rw [update_of_ne hs] at hnone
      rcases h.voted.mp hvote with hold | ⟨rfl, -⟩
      · exact ha.none hnone hold
      · exact hs rfl
  · rw [hval] at hsome
    rw [hid]
    by_cases hs : s' = s
    · subst hs
      rw [update_self] at hsome ⊢
      cases hsome
      refine ⟨h.voted.mpr (.inr ⟨rfl, rfl, rfl⟩), fun b' w hvote => ?_⟩
      rcases h.voted.mp hvote with hold | ⟨-, rfl, -⟩
      · rw [h.promised]
        exact (ha.voted hold).2.1
      · exact le_rfl
    · rw [update_of_ne hs] at hsome ⊢
      obtain ⟨h₁, h₂⟩ := ha.some hsome
      refine ⟨h.voted.mpr (.inl h₁), fun b' w hvote => ?_⟩
      rcases h.voted.mp hvote with hold | ⟨rfl, -⟩
      · exact h₂ b' w hold
      · exact absurd rfl hs
  · have hold : Message.promise r s' b' k hv ∈ n.sent :=
      (h.sent.mp hm).resolve_right fun he => by cases he.1
    obtain ⟨h₁, h₂, h₃⟩ := ha.promise hold
    rw [hpromised]
    -- the new vote is not below a ballot that has been promised
    have hnew : ∀ c w, Voted n' s' c w → Voted n s' c w ∨ b' ≤ c := fun c w hvote => by
      rcases h.voted.mp hvote with hold | ⟨rfl, rfl, -⟩
      · exact .inl hold
      · exact .inr (h.promised ▸ h₁)
    refine ⟨h₁, fun he c w hvote => ?_, fun v' he => ?_⟩
    · rcases hnew c w hvote with hold | hle
      · exact h₂ he c w hold
      · exact hle
    · obtain ⟨h₄, h₅, h₆⟩ := h₃ v' he
      refine ⟨h.voted.mpr (.inl h₄), h₅, fun c w hvote hlt => ?_⟩
      rcases hnew c w hvote with hold | hle
      · exact h₆ c w hold hlt
      · omega

/-- **An acceptor votes.** -/
theorem fits_votes (hf : Fits H W i n) (h : Votes n n' s b v) (hpos : 0 < b)
    (hp : Proposed (update W i n) s b v) (hconfig : configView n' = configView n)
    (hproposer : proposerView n' = proposerView n) (hlearner : learnerView n' = learnerView n)
    (hdelayed : ∀ {s B}, Job.tlc s B ∈ n'.delayed → Job.tlc s B ∈ n.delayed) : Fits H W i n' := by
  refine hf.next h.later fun hw ok => ⟨ok.config.frame hconfig, h.acceptor ok.acceptor hpos (hp.later hw),
    ok.proposer.frame hproposer fun hm => ?_, ok.learner.frame hlearner (fun hm => ?_) hdelayed⟩
  · exact (h.sent.mp hm).resolve_right fun he => by cases he.1
  · exact (h.sent.mp hm).resolve_right fun he => by cases he.1

theorem fits_vote_delayed (hf : Fits H W i n) (hb : b = n.promisedID s) (hpos : 0 < b)
    (hp : Proposed (update W i n) s b v) :
    Fits H W i { n with
      acceptedID := update n.acceptedID s b
      acceptedValue := update n.acceptedValue s (some v)
      delayed := n.delayed ++ [.accept s b v] } := by
  refine fits_votes hf ⟨hb, ?_, rfl, ?_⟩ hpos hp rfl rfl rfl fun hm => by simpa using hm
  · intro s' b' v'
    simp [Voted, or_assoc]
  · intro m
    exact ⟨.inl, fun hm => hm.elim id And.right⟩

theorem fits_vote_sent (hf : Fits H W i n) (hb : b = n.promisedID s) (hpos : 0 < b)
    (hp : Proposed (update W i n) s b v) :
    Fits H W i (Node.send { n with
      acceptedID := update n.acceptedID s b
      acceptedValue := update n.acceptedValue s (some v) } (.accept s b v)) := by
  refine fits_votes hf ⟨hb, ?_, rfl, ?_⟩ hpos hp rfl rfl rfl fun hm => hm
  · intro s' b' v'
    simp only [Voted, mem_send, Message.accept.injEq]
    tauto
  · intro m
    rw [mem_send]
    tauto

theorem fits_promise (hf : Fits H W i n) (hb : n.promisedID s < b) :
    Fits H W i (Node.send { n with promisedID := update n.promisedID s b }
      (.promise r s b (n.acceptedID s) (n.acceptedValue s))) := by
  have hle : ∀ s', n.promisedID s' ≤ update n.promisedID s b s' := fun s' => by
    by_cases hs : s' = s
    · rw [hs, update_self]
      exact hb.le
    · rw [update_of_ne hs]
  have hvoted : ∀ {s' b' v'}, Voted (Node.send { n with promisedID := update n.promisedID s b }
      (.promise r s b (n.acceptedID s) (n.acceptedValue s))) s' b' v' ↔ Voted n s' b' v' :=
    voted_send (n := { n with promisedID := update n.promisedID s b }) (by simp)
  refine hf.next ⟨fun hm => mem_send.mpr (.inl hm), hvoted.mpr, hle, fun hvote => .inl (hvoted.mp hvote)⟩
      fun _ ok =>
    ⟨ok.config.frame rfl, ?_, ok.proposer.frame rfl fun hm => by simpa [Node.send] using hm,
      ok.learner.frame rfl (fun hm => by simpa [Node.send] using hm) fun hm => hm⟩
  have ha := ok.acceptor
  refine ⟨fun hvote => ?_, fun hn hvote => ha.none hn (hvoted.mp hvote), fun hs => ?_,
    fun {r' s' b' h' hv'} hm => ?_⟩
  · obtain ⟨h₁, h₂, h₃⟩ := ha.voted (hvoted.mp hvote)
    exact ⟨h₁, h₂.trans (hle _), h₃⟩
  · obtain ⟨h₁, h₂⟩ := ha.some hs
    exact ⟨hvoted.mpr h₁, fun c w hvote => h₂ c w (hvoted.mp hvote)⟩
  · rcases mem_send.mp hm with hold | hnew
    · obtain ⟨h₁, h₂, h₃⟩ := ha.promise hold
      refine ⟨h₁.trans (hle _), fun he c w hvote => h₂ he c w (hvoted.mp hvote), fun v' he => ?_⟩
      obtain ⟨h₄, h₅, h₆⟩ := h₃ v' he
      exact ⟨hvoted.mpr h₄, h₅, fun c w hvote => h₆ c w (hvoted.mp hvote)⟩
    · -- the new promise: all votes are below it
      cases hnew
      refine ⟨by simp [Node.send], fun he c w hvote => absurd (hvoted.mp hvote) (ha.none he),
        fun v' he => ?_⟩
      obtain ⟨h₁, h₂⟩ := ha.some he
      exact ⟨hvoted.mpr h₁, Nat.lt_of_le_of_lt (ha.voted h₁).2.1 hb,
        fun c w hvote _ => h₂ c w (hvoted.mp hvote)⟩

/-! ### Proposers -/

/-- What a proposer has adopted once a promise has been counted: what it had, or
the value of the promise. -/
structure Adopts (n : Node (Fin N)) (s h : ℕ) (hv : Option PaxosValue) (k : ℕ) (x : PaxosValue) :
    Prop where
  covers : ∀ v, hv = some v → h ≤ k
  grows : n.proposerHighestAcceptedID s ≤ k
  either : k = n.proposerHighestAcceptedID s ∧ x = n.proposerValue s ∨ k = h ∧ hv = some x

theorem countPromise_eq (n : Node (Fin N)) (s b h : ℕ) (hv : Option PaxosValue) (src : Option (Fin N)) :
    ∃ k x, Adopts n s h hv k x ∧ countPromise n s b h hv src = { n with
      proposerPromises := update₂ n.proposerPromises s b (addSource src (n.proposerPromises s b))
      proposerHighestAcceptedID := update n.proposerHighestAcceptedID s k
      proposerValue := update n.proposerValue s x } := by
  unfold countPromise
  cases hv with
  | none =>
    refine ⟨_, _, ⟨fun v he => ?_, le_rfl, .inl ⟨rfl, rfl⟩⟩, ?_⟩
    · cases he
    · rw [update_eq_self, update_eq_self]
  | some v =>
    dsimp only
    split_ifs with hlt
    · exact ⟨h, v, ⟨fun _ _ => le_rfl, hlt.le, .inr ⟨rfl, rfl⟩⟩, rfl⟩
    · refine ⟨_, _, ⟨fun _ _ => Nat.le_of_not_lt hlt, le_rfl, .inl ⟨rfl, rfl⟩⟩, ?_⟩
      rw [update_eq_self, update_eq_self]

theorem proposed_of_promise (hW : AllOK H W) (hm : Message.promise r s b h (some v) ∈ (W a).sent) :
    0 < h ∧ h < b ∧ Proposed W s h v ∧ Named v := by
  obtain ⟨hvote, hlt, -⟩ := ((hW a).acceptor.promise hm).2.2 v rfl
  obtain ⟨hpos, -, hp⟩ := (hW a).acceptor.voted hvote
  obtain ⟨j, hj⟩ := hp
  exact ⟨hpos, hlt, ⟨j, hj⟩, ((hW j).proposer.propose hj).2.1⟩

/-- **A promise is counted** by the proposer whose number it has. -/
theorem fits_countPromise (hf : Fits H W i n) (hid : n.proposerID s = b)
    (hm : Message.promise r s b h hv ∈ (update W i n a).sent) :
    Fits H W i (countPromise n s b h hv (some a)) := by
  obtain ⟨k, x, hk, he⟩ := countPromise_eq n s b h hv (some a)
  rw [he]
  refine hf.proposer rfl rfl rfl fun hw ok => ?_
  have hp := ok.proposer
  refine ⟨hp.propose, hp.unique, fun {s'} hc hs => ?_, hp.tagged, hp.waiting, hp.value⟩
  have hr := hp.running hc hs
  by_cases hss : s' = s
  · subst hss
    refine ⟨hr.owns, ?_, ?_, fun a' ha' => ?_⟩
    · simp only [update_self]
      rcases hk.either with ⟨-, rfl⟩ | ⟨-, rfl⟩
      · exact hr.named
      · exact (proposed_of_promise hf hm).2.2.2
    · simp only [update_self]
      rcases hk.either with ⟨rfl, rfl⟩ | ⟨rfl, rfl⟩
      · exact hr.adopted
      · obtain ⟨-, hhb, hprop, -⟩ := proposed_of_promise hf hm
        exact .inr ⟨hid ▸ hhb, hprop.later hw⟩
    · simp only [update₂_apply, hid, and_self, if_true, mem_addSource, update_self] at ha' ⊢
      rcases ha' with rfl | hold
      · exact ⟨r, h, hv, (hw a').sent hm, hk.covers⟩
      · obtain ⟨r', k', kv, hm', hbound⟩ := hr.promises a' (hid ▸ hold)
        exact ⟨r', k', kv, hid ▸ hm', fun v' he' => (hbound v' he').trans hk.grows⟩
  · exact hr.frame rfl rfl (update_of_ne hss _ _) (update_of_ne hss _ _) (update_of_ne hss _ _)

theorem quorum_majority (hc : Config i n) {S : Finset (Fin N)} (hS : n.quorum ≤ S.card) : Majority S := by
  have hN : N ≠ 0 := Nat.ne_of_gt (Nat.lt_of_le_of_lt (Nat.zero_le i) i.isLt)
  unfold Node.quorum getQuorum at hS
  rw [hc.totalPeers, if_neg hN] at hS
  unfold Majority
  rwa [Fintype.card_fin]

theorem safe_of_running (hW : AllOK H W) (hi : W i = n) (hr : Running W n s)
    (hq : n.quorum ≤ (n.proposerPromises s (n.proposerID s)).card) :
    SafeIn W s (n.proposerID s) (n.proposerValue s) := by
  have hconf : Config i n := hi ▸ (hW i).config
  refine safe_of_promises (h := n.proposerHighestAcceptedID s) (quorum_majority hconf hq) ?_ ?_ ?_ ?_
  · intro a ha c hc
    obtain ⟨r, k, hv, hm, -⟩ := hr.promises a ha
    exact Nat.lt_of_lt_of_le hc ((hW a).acceptor.promise hm).1
  · intro a ha c w hlt hc hvote
    obtain ⟨r, k, hv, hm, hk⟩ := hr.promises a ha
    obtain ⟨-, hnone, hsome⟩ := (hW a).acceptor.promise hm
    cases hv with
    | none => exact absurd (hnone rfl c w hvote) (Nat.not_le.mpr hc)
    | some v =>
      have h₁ := (hsome v rfl).2.2 c w hvote hc
      have h₂ := hk v rfl
      omega
  · intro a _ w hvote
    obtain ⟨hpos, -, hp⟩ := (hW a).acceptor.voted hvote
    rcases hr.adopted with hzero | ⟨-, hp'⟩
    · omega
    · exact proposed_unique hW hp hp'
  · rcases hr.adopted with hzero | ⟨-, hp'⟩
    · rw [hzero]
      intro c hc
      cases hc
    · exact proposed_safe hW hp'

/-- **A proposer proposes** the value it has adopted, and goes on to phase 2. -/
theorem fits_propose (hf : Fits H W i n) (hcur : s = n.currentStep) (hphase : n.proposerPhase s = 1)
    (hid : n.proposerID s = b) (hq : n.quorum ≤ (n.proposerPromises s b).card) :
    Fits H W i ((n.send (.propose s b (n.proposerValue s))).setPhase s 2) := by
  subst hid
  have hp := hf.node.proposer
  have hr := hp.running hcur.ge (by omega)
  have hsafe := safe_of_running hf (update_self i n W) hr hq
  have hfresh : ∀ w, Message.propose s (n.proposerID s) w ∉ n.sent := fun w hm => by
    rcases (hp.propose hm).2.2.2 with hlt | ⟨-, hlt | ⟨-, hne⟩⟩
    · omega
    · omega
    · exact hne hphase
  have hvoted : ∀ {s' b' v'}, Voted ((n.send (.propose s (n.proposerID s) (n.proposerValue s))).setPhase s
    2) s' b' v' ↔ Voted n s' b' v' := voted_send (by simp)
  refine hf.next (nodeLater_of_eq (fun hm => mem_send.mpr (.inl hm)) hvoted rfl) fun hw ok =>
    ⟨ok.config.frame rfl, ok.acceptor.frame rfl hvoted fun hm => by simpa [Node.send,
      Node.setPhase] using hm, ?_,
    ok.learner.frame rfl (fun hm => by simpa [Node.send, Node.setPhase] using hm) fun hm => hm⟩
  have hp := ok.proposer
  have hzero : ∀ {s'}, (update n.proposerPhase s 2) s' ≠ 0 → n.proposerPhase s' ≠ 0 := fun {s'} hne => by
    by_cases hs : s' = s
    · rw [hs]
      omega
    · rwa [update_of_ne hs] at hne
  refine ⟨fun {s' b' v'} hm => ?_, fun {s' b' v' w'} hm hm' => ?_, fun {s'} hc hs => ?_,
    fun hc hs => ?_, hp.waiting, hp.value⟩
  · rcases mem_send.mp hm with hold | hnew
    · obtain ⟨h₁, h₂, h₃, h₄⟩ := hp.propose hold
      refine ⟨h₁, h₂, h₃, h₄.imp_right fun ⟨hne, hlt⟩ => ?_⟩
      show update n.proposerPhase s 2 s' ≠ 0 ∧ (b' < n.proposerID s' ∨ b' = n.proposerID s' ∧
        update n.proposerPhase s 2 s' ≠ 1)
      by_cases hs : s' = s
      · subst hs
        rw [update_self]
        exact ⟨by decide, hlt.imp_right fun hand => ⟨hand.1, by decide⟩⟩
      · rw [update_of_ne hs]
        exact ⟨hne, hlt⟩
    · cases hnew
      refine ⟨hr.owns, hr.named, hsafe.later hw, .inr ?_⟩
      show update n.proposerPhase s 2 s ≠ 0 ∧
        (n.proposerID s < n.proposerID s ∨ n.proposerID s = n.proposerID s ∧
        update n.proposerPhase s 2 s ≠ 1)
      rw [update_self]
      exact ⟨by decide, .inr ⟨rfl, by decide⟩⟩
  · rcases mem_send.mp hm with hold | hnew
    · rcases mem_send.mp hm' with hold' | hnew'
      · exact hp.unique hold hold'
      · cases hnew'
        exact absurd hold (hfresh _)
    · cases hnew
      rcases mem_send.mp hm' with hold' | hnew'
      · exact absurd hold' (hfresh _)
      · cases hnew'
        rfl
  · exact (hp.running hc (hzero hs)).frame rfl rfl rfl rfl rfl
  · exact hp.tagged hc (hzero hs)

/-- No proposal is under way in the current step or a later one. -/
def Clear (n : Node (Fin N)) : Prop := ∀ s, n.currentStep ≤ s → n.proposerPhase s = 0

theorem clear_of_tag (hp : Proposer W n) (hsending : ∀ s v, n.currentStep ≤ s → n.tag ≠ .sending s v)
    (hwaiting : ∀ s v ch, n.currentStep ≤ s → n.tag ≠ .waiting s v ch) : Clear n := by
  intro s hc
  by_contra hne
  rcases hp.tagged hc hne with ⟨v, ht⟩ | ⟨v, ch, ht⟩
  · exact hsending s v hc ht
  · exact hwaiting s v ch hc ht

theorem past_of_clear (hc : Clear n) (hp : Past n s b) : s < n.currentStep := by
  by_contra hlt
  rcases hp with hp | ⟨hne, -⟩
  · exact hlt hp
  · exact hne (hc s (Nat.le_of_not_lt hlt))

theorem slotOf_of_le (hb : 0 < b) (hbN : b ≤ N) : slotOf b N = b := by
  unfold slotOf
  rcases Nat.eq_or_lt_of_le hbN with rfl | hlt
  · rw [Nat.mod_self, if_pos rfl]
  · rw [Nat.mod_eq_of_lt hlt, if_neg (Nat.ne_of_gt hb)]

theorem owns_paxosID (hc : Config i n) : Owns n n.paxosID := by
  unfold Owns
  rw [hc.paxosID, hc.totalPeers]
  exact ⟨Nat.succ_pos _, slotOf_of_le (Nat.succ_pos _) i.isLt⟩

/-- **A proposal is begun** in the current step, with the first number of the node. -/
theorem fits_initialize (hf : Fits H W i n) (ht : n.tag = .looping v) :
    Fits H W i { initializeProposerState n n.currentStep v with tag := .sending n.currentStep v } := by
  refine hf.proposer rfl rfl rfl fun hw ok => ?_
  have hp := ok.proposer
  have hclear : Clear n := clear_of_tag hp (fun s v' _ he => by rw [ht] at he; cases he)
    fun s v' ch _ he => by rw [ht] at he; cases he
  have hnamed : Named v := hp.value (.inl ht)
  have honly : ∀ {s'}, n.currentStep ≤ s' → update n.proposerPhase n.currentStep 1 s' ≠ 0 →
      s' = n.currentStep := by
    intro s' hc hne
    by_contra hs
    rw [update_of_ne hs] at hne
    exact hne (hclear s' hc)
  refine ⟨fun {s' b' v'} hm => ?_, hp.unique, fun {s'} hc hs => ?_, fun {s'} hc hs => ?_, fun he => ?_,
    fun {v'} he => ?_⟩
  · obtain ⟨h₁, h₂, h₃, h₄⟩ := hp.propose hm
    have hpast : s' < n.currentStep := past_of_clear hclear h₄
    exact ⟨h₁, h₂, h₃, .inl hpast⟩
  · cases honly hc hs
    refine ⟨?_, ?_, .inl ?_, fun a ha => ?_⟩
    · simp only [Owns, initializeProposerState, update_self]
      exact owns_paxosID ok.config
    · simpa only [initializeProposerState, update_self] using hnamed
    · simp only [initializeProposerState, update_self]
    · simp only [initializeProposerState, update_self, Finset.notMem_empty] at ha
  · cases honly hc hs
    exact .inl ⟨v, rfl⟩
  · cases he
  · rcases he with he | ⟨s', he | ⟨ch, he⟩⟩
    · cases he
    · cases he
      exact hnamed
    · cases he

theorem fits_bump {b' : ℕ} {phase : ℕ → ℕ} {accepts : ℕ → ℕ → Finset (Fin N)} (hf : Fits H W i n)
    (hne : n.proposerPhase s ≠ 0) (hlt : n.proposerID s < b') (howns : Owns n b') (hphase : phase s ≠ 0)
    (hother : ∀ s', s' ≠ s → phase s' = n.proposerPhase s') :
    Fits H W i { n with
      proposerPhase := phase
      proposerID := update n.proposerID s b'
      proposerPromises := update n.proposerPromises s fun _ => ∅
      proposerAccepts := accepts } := by
  refine hf.proposer rfl rfl rfl fun hw ok => ?_
  have hp := ok.proposer
  have hzero : ∀ {s'}, phase s' ≠ 0 → n.proposerPhase s' ≠ 0 := fun {s'} hs => by
    by_cases hss : s' = s
    · exact hss ▸ hne
    · exact hother s' hss ▸ hs
  refine ⟨fun {s' c v'} hm => ?_, hp.unique, fun {s'} hc hs => ?_, fun hc hs => hp.tagged hc (hzero hs),
    hp.waiting, hp.value⟩
  · obtain ⟨h₁, h₂, h₃, h₄⟩ := hp.propose hm
    refine ⟨h₁, h₂, h₃, h₄.imp_right fun h => ?_⟩
    obtain ⟨hs, hc⟩ := h
    show phase s' ≠ 0 ∧ (c < update n.proposerID s b' s' ∨ c = update n.proposerID s b' s' ∧ phase s' ≠ 1)
    by_cases hss : s' = s
    · subst hss
      rw [update_self]
      exact ⟨hphase, .inl (by omega)⟩
    · rw [update_of_ne hss, hother s' hss]
      exact ⟨hs, hc⟩
  · have hr := hp.running hc (hzero hs)
    by_cases hss : s' = s
    · subst hss
      refine ⟨?_, hr.named, ?_, fun a ha => ?_⟩
      · simpa only [Owns, update_self] using howns
      · simp only [update_self]
        exact hr.adopted.imp_right fun h => ⟨h.1.trans hlt, h.2⟩
      · simp only [update_self, Finset.notMem_empty] at ha
    · exact hr.frame rfl (update_of_ne hss _ _) rfl rfl (update_of_ne hss _ _)

/-- **The next number of a proposer** is one of its own and higher. -/
theorem nextProposalID_spec (current minimum : ℕ) {slot : ℕ} (hslot : 0 < slot) (hle : slot ≤ N) :
    current < nextProposalID .unbounded current minimum N slot ∧
      slotOf (nextProposalID .unbounded current minimum N slot) N = slot := by
  have hN : 0 < N := hslot.trans_le hle
  -- the number that is moved up to the next one of the slot
  set t := if current + N < minimum then minimum else current + N with ht
  have htc : current < t := by
    rw [ht]
    split_ifs <;> omega
  have hrem : 0 < slotOf t N ∧ slotOf t N ≤ N ∧ ∃ q, t = N * q + slotOf t N := by
    have hmod := Nat.div_add_mod t N
    have hlt := Nat.mod_lt t hN
    unfold slotOf
    split_ifs with hz
    · refine ⟨hN, le_rfl, t / N - 1, ?_⟩
      have hq : 1 ≤ t / N := (Nat.one_le_div_iff hN).mpr (by
        by_contra hlt'
        rw [Nat.mod_eq_of_lt (by omega)] at hz
        omega)
      rw [Nat.mul_sub, Nat.mul_one]
      have hle' : N * 1 ≤ N * (t / N) := Nat.mul_le_mul_left N hq
      omega
    · exact ⟨Nat.pos_of_ne_zero hz, hlt.le, t / N, hmod.symm⟩
  obtain ⟨hr₁, hr₂, q, hq⟩ := hrem
  have hfinal : ∀ q', slotOf (N * q' + slot) N = slot := fun q' => by
    have hmod : (N * q' + slot) % N = slot % N := Nat.mul_add_mod ..
    have hslot' := slotOf_of_le hslot hle
    unfold slotOf at hslot' ⊢
    rwa [hmod]
  have hval : ∃ q', nextProposalID .unbounded current minimum N slot = N * q' + slot ∧
      current < nextProposalID .unbounded current minimum N slot := by
    rw [nextProposalID_unbounded]
    dsimp only
    rw [← ht]
    by_cases he : slotOf t N = slot
    · rw [if_neg (not_not.mpr he), if_neg (Nat.not_le.mpr htc)]
      exact ⟨q, he ▸ hq, htc⟩
    · rw [if_pos he]
      by_cases hlt : slotOf t N < slot
      · rw [if_pos hlt, if_neg (by omega)]
        exact ⟨q, by omega, by omega⟩
      · rw [if_neg hlt, if_neg (by omega)]
        exact ⟨q + 1, by rw [Nat.mul_add, Nat.mul_one]; omega, by omega⟩
  obtain ⟨q', he, hlt⟩ := hval
  exact ⟨hlt, he ▸ hfinal q'⟩

theorem fits_prepare (hf : Fits H W i n) (src : Option (Fin N)) :
    Fits H W i (n.send (.prepare s b src)) :=
  hf.next (nodeLater_send (by simp)) fun _ ok => ⟨ok.config.frame rfl,
    ok.acceptor.frame rfl (voted_send (by simp)) fun hm => by simpa [Node.send] using hm,
    ok.proposer.frame rfl fun hm => by simpa [Node.send] using hm,
    ok.learner.frame rfl (fun hm => by simpa [Node.send] using hm) fun hm => hm⟩

theorem fits_tag {naming : Map String String} {t : TagState} (hf : Fits H W i n) (hclear : Clear n)
    (ht : (∃ v, t = .looping v ∧ Named v) ∨ ∃ err, t = .returned err) :
    Fits H W i { n with naming := naming, tag := t } := by
  refine hf.proposer rfl rfl rfl fun hw ok => ?_
  have hp := ok.proposer
  refine ⟨hp.propose, hp.unique, fun hc hs => absurd (hclear _ hc) hs,
    fun hc hs => absurd (hclear _ hc) hs, fun he => ?_, fun he => ?_⟩
  · rcases ht with ⟨v, rfl, -⟩ | ⟨err, rfl⟩
    · cases he
    · cases he
  · rcases ht with ⟨v, rfl, hv⟩ | ⟨err, rfl⟩
    · rcases he with he | ⟨s', he | ⟨ch, he⟩⟩
      · cases he
        exact hv
      · cases he
      · cases he
    · rcases he with he | ⟨s', he | ⟨ch, he⟩⟩
      · cases he
      · cases he
      · cases he

theorem fits_wait {waiters : ℕ → List ℕ} {k : ℕ} {retries : List ℕ} {ch : Option ℕ} (hf : Fits H W i n)
    (ht : n.tag = .sending s v) (hch : n.currentStep ≤ s → ∃ c, ch = some c ∧ c ∈ waiters s) :
    Fits H W i { n with
      stepWaiters := waiters
      channels := k
      tag := .waiting s v ch
      retries := retries } := by
  refine hf.proposer rfl rfl rfl fun hw ok => ?_
  have hp := ok.proposer
  refine ⟨hp.propose, hp.unique, fun hc hs => (hp.running hc hs).frame rfl rfl rfl rfl rfl,
    fun {s'} hc hs => ?_, fun he hc => ?_, fun he => ?_⟩
  · rcases hp.tagged hc hs with ⟨v', he⟩ | ⟨v', ch', he⟩
    · rw [ht] at he
      cases he
      exact .inr ⟨v, ch, rfl⟩
    · rw [ht] at he
      cases he
  · cases he
    exact hch hc
  · rcases he with he | ⟨s', he | ⟨ch', he⟩⟩
    · cases he
    · cases he
    · cases he
      exact hp.value (.inr ⟨s, .inl ht⟩)

/-! ### Learners -/

/-- **An accept is counted.** -/
theorem fits_track (hf : Fits H W i n) (hm : Message.accept s b v ∈ (update W i n a).sent) :
    Fits H W i (trackAcceptCounts n s b (some a)).1 := by
  refine hf.learner rfl rfl rfl fun hw ok => ?_
  have hl := ok.learner
  refine ⟨fun {s' b' a'} ha => ?_, hl.sent, hl.delayed, hl.block, hl.commits, hl.first, hl.last⟩
  simp only [trackAcceptCounts, update₂_apply] at ha
  split_ifs at ha with hand
  · obtain ⟨rfl, rfl⟩ := hand
    rcases mem_addSource.mp ha with rfl | hold
    · exact ⟨v, (hw a').sent hm⟩
    · exact hl.counts hold
  · exact hl.counts ha

theorem fits_done (hf : Fits H W i n) (hne : n.proposerPhase s ≠ 0) : Fits H W i (n.setPhase s 3) := by
  refine hf.proposer rfl rfl rfl fun hw ok => ?_
  have hp := ok.proposer
  have hzero : ∀ {s'}, update n.proposerPhase s 3 s' ≠ 0 → n.proposerPhase s' ≠ 0 := fun {s'} hs => by
    by_cases hss : s' = s
    · exact hss ▸ hne
    · rwa [update_of_ne hss] at hs
  refine ⟨fun {s' b' v'} hm => ?_, hp.unique,
    fun hc hs => (hp.running hc (hzero hs)).frame rfl rfl rfl rfl rfl, fun hc hs =>
    hp.tagged hc (hzero hs), hp.waiting, hp.value⟩
  obtain ⟨h₁, h₂, h₃, h₄⟩ := hp.propose hm
  refine ⟨h₁, h₂, h₃, h₄.imp_right fun ⟨hs, hc⟩ => ?_⟩
  show update n.proposerPhase s 3 s' ≠ 0 ∧ (b' < n.proposerID s' ∨ b' = n.proposerID s' ∧
    update n.proposerPhase s 3 s' ≠ 1)
  by_cases hss : s' = s
  · subst hss
    rw [update_self]
    exact ⟨by decide, hc.imp_right fun hand => ⟨hand.1, by decide⟩⟩
  · rw [update_of_ne hss]
    exact ⟨hs, hc⟩

/-- **A quorum of accepts with one number decides the value**, since the number has one value. -/
theorem decided_of_count (hf : Fits H W i n) (hm : Message.accept s b v ∈ (update W i n a).sent)
    (hq : n.quorum ≤ (n.acceptCount s b).card) : Named v ∧ Decided (update W i n) s v := by
  have hvoted : ∀ {a v}, Message.accept s b v ∈ (update W i n a).sent → Voted (update W i n a) s b v :=
      fun hm =>
    .inl hm
  have hp := ((hf a).acceptor.voted (hvoted hm)).2.2
  obtain ⟨j, hj⟩ := hp
  refine ⟨((hf j).proposer.propose hj).2.1, b, n.acceptCount s b, quorum_majority hf.node.config hq,
    fun a' ha' => ?_⟩
  obtain ⟨v', hm'⟩ := hf.node.learner.counts ha'
  have hp' := ((hf a').acceptor.voted (hvoted hm')).2.2
  rw [proposed_unique hf ⟨j, hj⟩ hp']
  exact hvoted hm'

theorem legit_buildBlock (hl : Learner H W n) (hv : Named v) (hd : Decided W n.currentStep v) :
    Legit H W n.currentStep (buildBlock H n n.currentStep v) := by
  have hblank : ¬ (blank v.filename = true ∨ blank v.metahash = true) := by
    rw [hv.1, hv.2]
    simp
  unfold buildBlock
  rw [if_neg hblank]
  cases hc : n.currentStep with
  | zero =>
    rw [hl.first hc, if_neg (by decide)]
    exact .zero hv (hc ▸ hd)
  | succ s =>
    obtain ⟨B, hB, he⟩ := hl.last hc
    rw [he, if_pos (legit_length hB)]
    exact .succ hB hv (hc ▸ hd)

theorem voted_delay {s b : ℕ} {v : PaxosValue} {s' : ℕ} :
    Voted { n with delayed := n.delayed ++ [.tlc s' B] } s b v ↔ Voted n s b v := by
  simp [Voted]

theorem fits_delay (hf : Fits H W i n) (hB : Legit H (update W i n) s B) :
    Fits H W i { n with delayed := n.delayed ++ [.tlc s B] } := by
  refine hf.next (nodeLater_of_eq (fun hm => hm) voted_delay rfl) fun hw ok => ⟨ok.config.frame rfl,
    ok.acceptor.frame rfl voted_delay fun hm => hm, ok.proposer.frame rfl fun hm => hm, ?_⟩
  have hl := ok.learner
  refine ⟨hl.counts, hl.sent, fun hm => ?_, hl.block, hl.commits, hl.first, hl.last⟩
  rcases List.mem_append.mp hm with hold | hnew
  · exact hl.delayed hold
  · rw [List.mem_singleton] at hnew
    cases hnew
    exact hB.later hw

theorem fits_tlc (hf : Fits H W i n) (hB : Legit H (update W i n) s B) :
    Fits H W i (n.send (.tlc s B)) := by
  refine hf.next (nodeLater_send (by simp)) fun hw ok => ⟨ok.config.frame rfl,
    ok.acceptor.frame rfl (voted_send (by simp)) fun hm => by simpa [Node.send] using hm,
    ok.proposer.frame rfl fun hm => by simpa [Node.send] using hm, ?_⟩
  have hl := ok.learner
  refine ⟨hl.counts, fun hm => ?_, hl.delayed, hl.block, hl.commits, hl.first, hl.last⟩
  rcases mem_send.mp hm with hold | hnew
  · exact hl.sent hold
  · cases hnew
    exact hB.later hw

theorem fits_broadcasted (hf : Fits H W i n) (flags : ℕ → Bool) :
    Fits H W i { n with tlcBroadcasted := flags } :=
  hf.learner rfl rfl rfl fun _ ok => ok.learner.frame rfl (fun hm => hm) fun hm => hm

theorem fits_countTLC (hf : Fits H W i n) (hB : Legit H (update W i n) s B) (src : Option (Fin N)) :
    Fits H W i (countTLC n s B src) := by
  refine hf.learner rfl rfl rfl fun hw ok => ?_
  have hl := ok.learner
  refine ⟨hl.counts, hl.sent, hl.delayed, fun {s' B'} hb => ?_, hl.commits, hl.first, hl.last⟩
  simp only [countTLC, lookup_insert_ite] at hb
  split_ifs at hb with hs
  · cases hb
    exact hs ▸ hB.later hw
  · exact hl.block hb

/-- **A step is committed** with its block, and everything of later steps is kept. -/
theorem fits_commit (hf : Fits H W i n) (hcur : s = n.currentStep) (hB : Legit H (update W i n) s B) :
    Fits H W i (commitStep n s B) := by
  subst hcur
  rw [commitStep_eq]
  generalize (commitBlock n n.currentStep B).naming = naming
  refine hf.silent rfl rfl rfl fun hw ok => ⟨?_, ?_⟩
  · have hp := ok.proposer
    refine ⟨fun {s' b' v'} hm => ?_, hp.unique, fun {s'} hc hs => ?_, fun {s'} hc hs => ?_,
      fun {s' v' ch} ht hc => ?_, hp.value⟩
    · obtain ⟨h₁, h₂, h₃, h₄⟩ := hp.propose hm
      refine ⟨h₁, h₂, h₃, ?_⟩
      by_cases hs : s' < n.currentStep + 1
      · exact .inl hs
      · have hne : s' ≠ n.currentStep := by omega
        refine .inr ?_
        simp only [update_of_ne hne]
        exact h₄.resolve_left (by omega)
    · have hne : s' ≠ n.currentStep := Nat.ne_of_gt hc
      simp only [update_of_ne hne] at hs
      exact (hp.running (Nat.le_of_succ_le hc) hs).frame rfl (update_of_ne hne _ _) (update_of_ne hne _ _)
        (update_of_ne hne _ _) (update_of_ne hne _ _)
    · have hne : s' ≠ n.currentStep := Nat.ne_of_gt hc
      simp only [update_of_ne hne] at hs
      exact hp.tagged (Nat.le_of_succ_le hc) hs
    · have hne : s' ≠ n.currentStep := Nat.ne_of_gt hc
      simp only [update_of_ne hne]
      exact hp.waiting ht (Nat.le_of_succ_le hc)
  · have hl := ok.learner
    refine ⟨fun {s' b' a'} ha => ?_, hl.sent, hl.delayed, fun {s' B'} hb => ?_, fun hm => ?_,
      fun hc => ?_, fun hc => ?_⟩
    · by_cases hs : s' = n.currentStep
      · simp only [hs, update_self, Finset.notMem_empty] at ha
      · simp only [update_of_ne hs] at ha
        exact hl.counts ha
    · simp only [lookup_erase_ite] at hb
      split_ifs at hb
      exact hl.block hb
    · rcases List.mem_append.mp hm with hold | hnew
      · exact hl.commits hold
      · rw [List.mem_singleton] at hnew
        cases hnew
        exact hB.later hw
    · cases hc
    · cases hc
      exact ⟨B, hB.later hw, rfl⟩

/-! ### Delayed goroutines -/

theorem mem_eraseIdx_of_ne {j j' : Job} {k : ℕ} {l : List Job} (hk : l[k]? = some j) (hne : j' ≠ j) :
    j' ∈ l.eraseIdx k ↔ j' ∈ l := by
  refine ⟨List.mem_of_mem_eraseIdx, fun hmem => ?_⟩
  obtain ⟨k', hk'⟩ := List.mem_iff_getElem?.mp hmem
  refine List.mem_eraseIdx_iff_getElem?.mpr ⟨k', fun he => hne ?_, hk'⟩
  rw [he, hk] at hk'
  exact (Option.some.inj hk').symm

theorem fits_release {k : ℕ} (hf : Fits H W i n) (hk : n.delayed[k]? = some (.accept s b v)) :
    Fits H W i (Node.send { n with delayed := n.delayed.eraseIdx k } (.accept s b v)) := by
  have hvoted : ∀ {s' b' v'}, Voted (Node.send { n with delayed := n.delayed.eraseIdx k } (.accept s b v))
    s' b' v' ↔ Voted n s' b' v' := by
    intro s' b' v'
    unfold Voted
    rw [mem_send]
    constructor
    · rintro ((hold | hnew) | herased)
      · exact .inl hold
      · cases hnew
        exact .inr (List.mem_of_getElem? hk)
      · exact .inr (List.mem_of_mem_eraseIdx herased)
    · rintro (hold | hdelayed)
      · exact .inl (.inl hold)
      · by_cases he : Job.accept s' b' v' = .accept s b v
        · cases he
          exact .inl (.inr rfl)
        · exact .inr ((mem_eraseIdx_of_ne hk he).mpr hdelayed)
  exact hf.next (nodeLater_of_eq (fun hm => mem_send.mpr (.inl hm)) hvoted rfl) fun _ ok =>
    ⟨ok.config.frame rfl, ok.acceptor.frame rfl hvoted fun hm => by simpa [Node.send] using hm,
    ok.proposer.frame rfl fun hm => by simpa [Node.send] using hm,
    ok.learner.frame rfl (fun hm => by simpa [Node.send] using hm) fun hm => List.mem_of_mem_eraseIdx hm⟩

theorem fits_take {k : ℕ} (hf : Fits H W i n) (hk : n.delayed[k]? = some (.tlc s B)) :
    Fits H W i { n with delayed := n.delayed.eraseIdx k } := by
  have hvoted : ∀ {s' b' v'}, Voted { n with delayed := n.delayed.eraseIdx k } s' b' v' ↔
      Voted n s' b' v' :=
    or_congr Iff.rfl (mem_eraseIdx_of_ne hk (by simp))
  exact hf.next (nodeLater_of_eq (fun hm => hm) hvoted rfl) fun _ ok => ⟨ok.config.frame rfl,
    ok.acceptor.frame rfl hvoted fun hm => hm, ok.proposer.frame rfl fun hm => hm,
    ok.learner.frame rfl (fun hm => hm) fun hm => List.mem_of_mem_eraseIdx hm⟩

end Namecoin.Paxos.Roles
