import Namecoin.Paxos.Proposers

/-! # Proposals of a node

When the quorum of promises is reached, the handler takes the value to propose in its critical section,
and then it broadcasts the proposal and moves on to phase 2. Until then, the handlers of further
promises find the node in phase 1, and each of them broadcasts a proposal of its own.

* `Claimed`: a proposal that has been broadcast, or that a goroutine is about to broadcast;
* `proposals_iff`: **two proposals with the same step and number have the same value** as long as no
  promise makes the node adopt another value while a goroutine has yet to move on to phase 2, the
  state of the proposer is not set up again or cleaned up underneath it, and each retry goes on to a
  number above the one before;
* `two_values`: a promise that comes in between; `wrapped_values`: numbers that wrap around. -/

namespace Namecoin.Paxos.Proposals

open Function
open Lib.ByteStrings Lib.Threads Paxos.Defs Paxos.Threads Paxos.Proposers

variable {A : Type} {n n' : Node A} {j : Work A} {p p' : Pool (Node A) (Work A)} {a : Event A}
  {s b : ℕ} {v w : PaxosValue}

/-- **One value for each proposal number of a step.** -/
def OneValue (n : Node A) : Prop :=
  ∀ s b v w, .propose s b v ∈ n.sent → .propose s b w ∈ n.sent → v = w

/-- The proposal has been broadcast or is about to be. -/
def Claimed (p : Pool (Node A) (Work A)) (s b : ℕ) (v : PaxosValue) : Prop :=
  .propose s b v ∈ p.shared.sent ∨ .emit (.propose s b v) ∈ p.tasks

variable [DecidableEq A] {H : Bytes → Digest}

/-! ### The invariant -/

/-- The retry loop. -/
def retrying : Work A → Bool
  | .retry _ | .tick _ | .bump1 .. | .bump2 .. => true
  | _ => false

/-- How many of the tasks belong to retry loops. -/
def retries (js : Multiset (Work A)) : ℕ := js.countP fun j => retrying j = true

omit [DecidableEq A] in
theorem retries_cons {js : Multiset (Work A)} (hj : retrying j = true) :
    retries (j ::ₘ js) = retries js + 1 :=
  Multiset.countP_cons_of_pos (p := fun j => retrying j = true) js hj

omit [DecidableEq A] in
theorem retries_cons_of_not {js : Multiset (Work A)} (hj : retrying j = false) :
    retries (j ::ₘ js) = retries js :=
  Multiset.countP_cons_of_neg (p := fun j => retrying j = true) js (Bool.eq_false_iff.mp hj)

omit [DecidableEq A] in
theorem retries_pos {js : Multiset (Work A)} (hj : retrying j = true) (hmem : j ∈ js) : 0 < retries js :=
  Multiset.countP_pos.mpr ⟨j, hmem, hj⟩

/-- The retry loop is about to raise the number of the proposal, from `id`. -/
def Bumping (p : Pool (Node A) (Work A)) (s id : ℕ) : Prop :=
  .bump1 s id ∈ pending p s ∨ .bump2 s id ∈ pending p s

/-- **What is known of the proposer of a step**: a proposal of the current number is followed by the
move to phase 2, and until then the value is the one that has been proposed. -/
structure Sound (p : Pool (Node A) (Work A)) (s : ℕ) : Prop where
  one : ∀ b v w, Claimed p s b v → Claimed p s b w → v = w
  below : ∀ b v, Claimed p s b v → b < p.shared.proposerID s ∨
    (b = p.shared.proposerID s ∧
      (p.shared.proposerPhase s = 1 → .phase2 s b ∈ pending p s ∧ p.shared.proposerValue s = v)) ∨
    (p.shared.proposerPhase s = 3 ∧ ∀ b, .phase2 s b ∉ pending p s)
  bumps : ∀ id, Bumping p s id → p.shared.proposerID s ≤ id ∧ ∀ b v, Claimed p s b v → b ≤ id
  loops : retries (pending p s) ≤ 1
  quorum : ∀ b, .phase2 s b ∈ pending p s → (∃ v, Claimed p s b v) ∧
    (b = p.shared.proposerID s → p.shared.proposerPhase s = 1 →
      p.shared.quorum ≤ (p.shared.proposerPromises s b).card)

omit [DecidableEq A] in
theorem claimed_iff : Claimed p s b v ↔ .propose s b v ∈ p.shared.sent ∨
    .emit (.propose s b v) ∈ pending p s :=
  or_congr_right ⟨fun h => mem_those.mpr ⟨h, beq_self_eq_true s⟩, fun h => (mem_those.mp h).1⟩

omit [DecidableEq A] in
theorem Sound.congr (h : Sound p s) (hprop : proposer p'.shared s = proposer p.shared s)
    (hpeers : p'.shared.totalPeers = p.shared.totalPeers)
    (hclaims : ∀ b v, Claimed p' s b v ↔ Claimed p s b v)
    (hphase : ∀ b, .phase2 s b ∈ pending p' s ↔ .phase2 s b ∈ pending p s)
    (hbumps : ∀ id, Bumping p' s id → Bumping p s id) (hloops : retries (pending p' s) ≤ 1) :
    Sound p' s := by
  have hphase' : p'.shared.proposerPhase s = p.shared.proposerPhase s := congrArg Proposer.phase hprop
  have hid : p'.shared.proposerID s = p.shared.proposerID s := congrArg Proposer.id hprop
  have hvalue : p'.shared.proposerValue s = p.shared.proposerValue s := congrArg Proposer.value hprop
  have hpromises : p'.shared.proposerPromises s = p.shared.proposerPromises s :=
    congrArg Proposer.promises hprop
  have hquorum : p'.shared.quorum = p.shared.quorum := congrArg getQuorum hpeers
  refine ⟨fun b v w hv hw => h.one b v w ((hclaims b v).mp hv) ((hclaims b w).mp hw), fun b v hc => ?_,
    fun id hb => ?_, hloops, fun b hb => ?_⟩
  · simp only [hphase', hid, hvalue, hphase]
    exact h.below b v ((hclaims b v).mp hc)
  · simp only [hid, hclaims]
    exact h.bumps id (hbumps id hb)
  · simp only [hphase', hid, hpromises, hquorum, hclaims]
    exact h.quorum b ((hphase b).mp hb)

/-! ### The condition -/

/-- The message is a proposal for the step. -/
def isProposal (s : ℕ) : Message A → Bool
  | .propose s' _ _ => s' == s
  | _ => false

/-- A goroutine has broadcast a proposal for the step and has yet to move on to phase 2. -/
def moving (s : ℕ) : Work A → Bool
  | .phase2 s' _ => s' == s
  | _ => false

/-- What the condition asks when a task is run. A promise does not make the node adopt another value
while a goroutine has yet to move on to phase 2; `Tag` does not set up a proposer that has proposed
already or has a retry loop; a commit does not clean up the proposer while a goroutine has yet to move
on to phase 2; and the number of a retry is above the one before, so it has not wrapped around. -/
def Steady (p : Pool (Node A) (Work A)) : Work A → Prop
  | .promiseLock s id k (some w) _ => shouldProcessPromise p.shared s id → .phase2 s id ∈ p.tasks →
    p.shared.proposerHighestAcceptedID s < k → w = p.shared.proposerValue s
  | .tagInit s _ => (∀ m ∈ p.shared.sent, isProposal s m = false) ∧ ∀ j ∈ p.tasks, mine s j = false
  | .cleanProposer s => ∀ j ∈ p.tasks, moving s j = false
  | .bump1 s id | .bump2 s id => id < nextOf p.shared s id p.shared.totalPeers p.shared.slot
  | _ => True

/-- Every task that is run meets the condition. -/
def SteadyRun (p : Pool (Node A) (Work A)) : Event A → Prop
  | .run t => ∀ j ∈ p.top t, Steady p j
  | _ => True

/-! ### Steps keep the invariant -/

theorem countPromise_spec (n : Node A) (s id k : ℕ) (hv : Option PaxosValue) (src : Option A) :
    (countPromise n s id k hv src).proposerPhase = n.proposerPhase ∧
    (countPromise n s id k hv src).proposerID = n.proposerID ∧
    (countPromise n s id k hv src).proposerPromises =
      update₂ n.proposerPromises s id (addSource src (n.proposerPromises s id)) ∧
    ((countPromise n s id k hv src).proposerValue s = n.proposerValue s ∨
      ∃ w, hv = some w ∧ n.proposerHighestAcceptedID s < k ∧
      (countPromise n s id k hv src).proposerValue s = w) := by
  unfold countPromise
  cases hv with
  | none => exact ⟨rfl, rfl, rfl, .inl rfl⟩
  | some w =>
    dsimp only
    split_ifs with hk
    · exact ⟨rfl, rfl, rfl, .inr ⟨w, rfl, hk, update_self ..⟩⟩
    · exact ⟨rfl, rfl, rfl, .inl rfl⟩

theorem subset_addSource (src : Option A) (l : Finset A) : l ⊆ addSource src l := by
  cases src with
  | none => exact Finset.Subset.refl l
  | some a => exact Finset.subset_insert a l

theorem card_promises_le (n : Node A) (s id k : ℕ) (hv : Option PaxosValue) (src : Option A) (b : ℕ) :
    (n.proposerPromises s b).card ≤ ((countPromise n s id k hv src).proposerPromises s b).card := by
  rw [(countPromise_spec n s id k hv src).2.2.1]
  unfold update₂
  rw [update_self]
  by_cases hb : b = id
  · rw [hb, update_self]
    exact Finset.card_le_card (subset_addSource src _)
  · rw [update_of_ne hb]

/-- The proposals and the tasks of the proposer after a promise for its number has been counted. -/
structure Promised (p p' : Pool (Node A) (Work A)) (s : ℕ) : Prop where
  claims : ∀ b v, Claimed p s b v → Claimed p' s b v
  claimed : ∀ b v, Claimed p' s b v → Claimed p s b v ∨
    (b = p.shared.proposerID s ∧ p'.shared.proposerValue s = v ∧ .phase2 s b ∈ pending p' s)
  moves : ∀ b, .phase2 s b ∈ pending p s → .phase2 s b ∈ pending p' s
  moved : ∀ b, .phase2 s b ∈ pending p' s → .phase2 s b ∈ pending p s ∨ (b = p.shared.proposerID s ∧
    (∃ v, Claimed p' s b v) ∧ p'.shared.quorum ≤ (p'.shared.proposerPromises s b).card)
  bumps : ∀ id, Bumping p' s id → Bumping p s id
  loops : retries (pending p' s) = retries (pending p s)

omit [DecidableEq A] in
theorem promised_same (hsent : p'.shared.sent = p.shared.sent) (hpend : pending p' s = pending p s) :
    Promised p p' s := by
  have hclaims : ∀ b v, Claimed p' s b v ↔ Claimed p s b v := fun b v => by
    rw [claimed_iff, claimed_iff, hsent, hpend]
  refine ⟨fun b v => (hclaims b v).mpr, fun b v hc => .inl ((hclaims b v).mp hc), ?_, ?_,
    ?_, by rw [hpend]⟩
  · rw [hpend]
    exact fun _ => id
  · rw [hpend]
    exact fun _ => .inl
  · unfold Bumping
    rw [hpend]
    exact fun _ => id

omit [DecidableEq A] in
theorem promised_quorum (hsent : p'.shared.sent = p.shared.sent)
    (hq : p'.shared.quorum ≤ (p'.shared.proposerPromises s (p.shared.proposerID s)).card)
    (hpend : pending p' s = .emit (.propose s (p.shared.proposerID s) (p'.shared.proposerValue s)) ::ₘ
      .phase2 s (p.shared.proposerID s) ::ₘ pending p s) : Promised p p' s := by
  have hmem : ∀ {j}, j ∈ pending p s → j ∈ pending p' s := fun hj => by
    rw [hpend]
    exact Multiset.mem_cons_of_mem (Multiset.mem_cons_of_mem hj)
  refine ⟨fun b v hc => ?_, fun b v hc => ?_, fun b => hmem, fun b hb => ?_, fun id hb => ?_, ?_⟩
  · rw [claimed_iff] at hc ⊢
    rw [hsent]
    exact hc.imp_right hmem
  · rw [claimed_iff, hsent, hpend] at hc
    simp only [Multiset.mem_cons, Work.emit.injEq, Message.propose.injEq, true_and,
      reduceCtorEq, false_or] at hc
    rcases hc with hc | ⟨rfl, rfl⟩ | hc
    · exact .inl (claimed_iff.mpr (.inl hc))
    · exact .inr ⟨rfl, rfl, by simp [hpend]⟩
    · exact .inl (claimed_iff.mpr (.inr hc))
  · rw [hpend] at hb
    simp only [Multiset.mem_cons, reduceCtorEq, Work.phase2.injEq, true_and, false_or] at hb
    rcases hb with rfl | hb
    · exact .inr ⟨rfl, ⟨_, claimed_iff.mpr (.inr (by rw [hpend]; exact Multiset.mem_cons_self _ _))⟩, hq⟩
    · exact .inl hb
  · unfold Bumping at hb ⊢
    rw [hpend] at hb
    simpa using hb
  · rw [hpend, retries_cons_of_not rfl, retries_cons_of_not rfl]

theorem sound_promise {k : ℕ} {hv : Option PaxosValue} {src : Option A} (h : Sound p s)
    (hsteady : Steady p (.promiseLock s (p.shared.proposerID s) k hv src))
    (hphase : p.shared.proposerPhase s = 1)
    (hshared : p'.shared = countPromise p.shared s (p.shared.proposerID s) k hv src)
    (hp : Promised p p' s) :
    Sound p' s := by
  obtain ⟨hpeers, -⟩ := countPromise_frame (s := s) p.shared s (p.shared.proposerID s) k hv src
  obtain ⟨hphase', hid, -, hvalue⟩ := countPromise_spec p.shared s (p.shared.proposerID s) k hv src
  rw [← hshared] at hpeers hphase' hid hvalue
  have hnot : ¬ p.shared.proposerPhase s = 3 := by omega
  -- a proposal of the current number keeps its value
  have hkeep : ∀ v, Claimed p s (p.shared.proposerID s) v →
    .phase2 s (p.shared.proposerID s) ∈ pending p s ∧ p'.shared.proposerValue s = v := fun v hc => by
    rcases h.below _ v hc with hlt | ⟨-, hmove⟩ | ⟨hdone, -⟩
    · exact absurd hlt (Nat.lt_irrefl _)
    · obtain ⟨hmem, hval⟩ := hmove hphase
      refine ⟨hmem, ?_⟩
      rcases hvalue with hsame | ⟨w, rfl, hk, hw⟩
      · exact hsame.trans hval
      · exact (hw.trans (hsteady ⟨hphase, rfl⟩ (mem_those.mp hmem).1 hk)).trans hval
    · exact absurd hdone hnot
  have hgrow := card_promises_le p.shared s (p.shared.proposerID s) k hv src
  rw [← hshared] at hgrow
  refine ⟨fun b v w hv hw => ?_, fun b v hc => ?_, fun id hb => ?_, hp.loops ▸ h.loops, fun b hb => ?_⟩
  · rcases hp.claimed b v hv with hv | ⟨rfl, hval, -⟩ <;> rcases hp.claimed _ w
      hw with hw | ⟨hb, hval', -⟩
    · exact h.one b v w hv hw
    · subst hb
      exact (hkeep v hv).2.symm.trans hval'
    · exact hval.symm.trans (hkeep w hw).2
    · exact hval.symm.trans hval'
  · rw [hphase', hid]
    rcases hp.claimed b v hc with hc | ⟨rfl, hval, hmem⟩
    · rcases h.below b v hc with hlt | ⟨rfl, -⟩ | ⟨hdone, -⟩
      · exact .inl hlt
      · obtain ⟨hmem, hval⟩ := hkeep v hc
        exact .inr (.inl ⟨rfl, fun _ => ⟨hp.moves _ hmem, hval⟩⟩)
      · exact absurd hdone hnot
    · exact .inr (.inl ⟨rfl, fun _ => ⟨hmem, hval⟩⟩)
  · obtain ⟨hle, hall⟩ := h.bumps id (hp.bumps id hb)
    rw [hid]
    refine ⟨hle, fun b v hc => ?_⟩
    rcases hp.claimed b v hc with hc | ⟨rfl, -⟩
    · exact hall b v hc
    · exact hle
  · rcases hp.moved b hb with hmem | ⟨rfl, hc, hq⟩
    · obtain ⟨⟨v, hc⟩, hq⟩ := h.quorum b hmem
      refine ⟨⟨v, hp.claims b v hc⟩, fun hb _ => ?_⟩
      rw [hid] at hb
      exact (congrArg getQuorum hpeers).le.trans ((hq hb hphase).trans (hgrow b))
    · exact ⟨hc, fun _ _ => hq⟩

omit [DecidableEq A] in
theorem Sound.bump {id : ℕ} {rest : Multiset (Work A)} (h : Sound p s) (hpend : pending p s = j ::ₘ rest)
    (hj : j = .bump1 s id ∨ j = .bump2 s id) (hsent : p'.shared.sent = p.shared.sent)
    (hpend' : pending p' s = .tick s ::ₘ rest) (hid : id < p'.shared.proposerID s) : Sound p' s := by
  have hbump : Bumping p s id := by
    unfold Bumping
    rw [hpend]
    rcases hj with rfl | rfl
    · exact .inl (Multiset.mem_cons_self _ _)
    · exact .inr (Multiset.mem_cons_self _ _)
  have hretrying : retrying j = true := by
    rcases hj with rfl | rfl <;> rfl
  have hloops := h.loops
  rw [hpend, retries_cons hretrying] at hloops
  have hclaims : ∀ b v, Claimed p' s b v ↔ Claimed p s b v := fun b v => by
    rw [claimed_iff, claimed_iff, hsent, hpend, hpend']
    rcases hj with rfl | rfl <;> simp
  have hbelow : ∀ b v, Claimed p' s b v → b < p'.shared.proposerID s := fun b v hc =>
    Nat.lt_of_le_of_lt ((h.bumps id hbump).2 b v ((hclaims b v).mp hc)) hid
  refine ⟨fun b v w hv hw => h.one b v w ((hclaims b v).mp hv) ((hclaims b w).mp hw),
    fun b v hc => .inl (hbelow b v hc), fun id' hb => ?_, ?_, fun b hb => ?_⟩
  · -- there is no second retry loop
    unfold Bumping at hb
    rw [hpend'] at hb
    have hpos : 0 < retries rest := by
      rcases hb with hb | hb
      · exact retries_pos rfl ((Multiset.mem_cons.mp hb).resolve_left (by simp))
      · exact retries_pos rfl ((Multiset.mem_cons.mp hb).resolve_left (by simp))
    omega
  · rw [hpend', retries_cons rfl]
    exact hloops
  · have hmem : .phase2 s b ∈ pending p s := by
      rw [hpend'] at hb
      rw [hpend]
      exact Multiset.mem_cons_of_mem ((Multiset.mem_cons.mp hb).resolve_left (by simp))
    obtain ⟨⟨v, hc⟩, -⟩ := h.quorum b hmem
    have hc := (hclaims b v).mpr hc
    exact ⟨⟨v, hc⟩, fun he => absurd he (Nat.ne_of_lt (hbelow b v hc))⟩

omit [DecidableEq A] in
theorem Sound.phase2 {rest : Multiset (Work A)} (h : Sound p s)
    (hpend : pending p s = .phase2 s b ::ₘ rest) (hshared : p'.shared = p.shared.setPhase s 2)
    (hpend' : pending p' s = rest) : Sound p' s := by
  have hphase : p'.shared.proposerPhase s = 2 := by
    rw [hshared]
    exact update_self ..
  have hid : p'.shared.proposerID = p.shared.proposerID := by rw [hshared]; rfl
  have hclaims : ∀ b v, Claimed p' s b v ↔ Claimed p s b v := fun b v => by
    rw [claimed_iff, claimed_iff, hpend, hpend', hshared]
    simp [Node.setPhase]
  refine ⟨fun b v w hv hw => h.one b v w ((hclaims b v).mp hv) ((hclaims b w).mp hw), fun b' v hc => ?_,
    fun id hb => ?_, ?_, fun b' hb => ?_⟩
  · rw [hphase, hid]
    rcases h.below b' v ((hclaims b' v).mp hc) with hlt | ⟨he, -⟩ | ⟨-, hnone⟩
    · exact .inl hlt
    · exact .inr (.inl ⟨he, fun h2 => by cases h2⟩)
    · exact absurd (hpend ▸ Multiset.mem_cons_self _ _) (hnone b)
  · have hb' : Bumping p s id := by
      unfold Bumping at hb ⊢
      rw [hpend]
      rw [hpend'] at hb
      exact hb.imp Multiset.mem_cons_of_mem Multiset.mem_cons_of_mem
    rw [hid]
    simpa only [hclaims] using h.bumps id hb'
  · have hloops := h.loops
    rwa [hpend, retries_cons_of_not rfl, ← hpend'] at hloops
  · rw [hpend'] at hb
    obtain ⟨⟨v, hc⟩, -⟩ := h.quorum b' (hpend ▸ Multiset.mem_cons_of_mem hb)
    refine ⟨⟨v, (hclaims b' v).mpr hc⟩, fun _ hone => ?_⟩
    rw [hphase] at hone
    cases hone

omit [DecidableEq A] in
theorem Sound.finish (h : Sound p s) (hphase : p'.shared.proposerPhase s = 3)
    (hsent : p'.shared.sent = p.shared.sent) (hpend : pending p' s = pending p s)
    (hid : p'.shared.proposerID s = p.shared.proposerID s ∨
      p'.shared.proposerID s = 0 ∧ ∀ b, .phase2 s b ∉ pending p s) : Sound p' s := by
  have hclaims : ∀ b v, Claimed p' s b v ↔ Claimed p s b v := fun b v => by
    rw [claimed_iff, claimed_iff, hpend, hsent]
  refine ⟨fun b v w hv hw => h.one b v w ((hclaims b v).mp hv) ((hclaims b w).mp hw), fun b v hc => ?_,
    fun id hb => ?_, by rw [hpend]; exact h.loops, fun b hb => ?_⟩
  · rw [hphase, hpend]
    rcases hid with hid | ⟨-, hnone⟩
    · rw [hid]
      rcases h.below b v ((hclaims b v).mp hc) with hlt | ⟨he, -⟩ | ⟨-, hnone⟩
      · exact .inl hlt
      · exact .inr (.inl ⟨he, fun h3 => by cases h3⟩)
      · exact .inr (.inr ⟨rfl, hnone⟩)
    · exact .inr (.inr ⟨rfl, hnone⟩)
  · have hb' : Bumping p s id := by
      unfold Bumping at hb ⊢
      rwa [hpend] at hb
    obtain ⟨hle, hall⟩ := h.bumps id hb'
    simp only [hclaims]
    refine ⟨?_, hall⟩
    rcases hid with hid | ⟨hid, -⟩
    · rwa [hid]
    · rw [hid]
      exact Nat.zero_le id
  · rw [hpend] at hb
    obtain ⟨⟨v, hc⟩, -⟩ := h.quorum b hb
    refine ⟨⟨v, (hclaims b v).mpr hc⟩, fun _ hone => ?_⟩
    rw [hphase] at hone
    cases hone

omit [DecidableEq A] in
theorem sound_init (hsent : ∀ m ∈ p'.shared.sent, isProposal s m = false)
    (hpend : pending p' s = {.retry s}) :
    Sound p' s := by
  have hclaims : ∀ b v, ¬ Claimed p' s b v := fun b v hc => by
    rw [claimed_iff, hpend] at hc
    rcases hc with hc | hc
    · have hnot := hsent _ hc
      simp [isProposal] at hnot
    · simp at hc
  refine ⟨fun b v w hv => absurd hv (hclaims b v), fun b v hc => absurd hc (hclaims b v),
    fun id hb => ?_, ?_, fun b hb => ?_⟩
  · unfold Bumping at hb
    rw [hpend] at hb
    simp at hb
  · rw [hpend, ← Multiset.cons_zero, retries_cons rfl]
    exact Nat.le_refl 1
  · rw [hpend] at hb
    simp at hb

omit [DecidableEq A] in
theorem Sound.loop {rest : Multiset (Work A)} {l : List (Work A)} (h : Sound p s)
    (hpend : pending p s = j ::ₘ rest) (hj : retrying j = true) (hshared : p'.shared = p.shared)
    (hpend' : pending p' s = l + rest) (hl : ∀ j' ∈ l, retrying j' = true) (hlen : l.length ≤ 1)
    (hbump : ∀ id, .bump1 s id ∈ l ∨ .bump2 s id ∈ l → id = p.shared.proposerID s ∧
    p.shared.proposerPhase s ≠ 3) :
    Sound p' s := by
  have hother : ∀ j', retrying j' = false → (j' ∈ pending p' s ↔ j' ∈ pending p s) := fun j' hj' => by
    rw [hpend, hpend', Multiset.mem_add, Multiset.mem_cons]
    have hne : j' ≠ j := by
      rintro rfl
      rw [hj] at hj'
      cases hj'
    have hnot : j' ∉ (l : Multiset (Work A)) := fun hmem => by
      rw [hl j' hmem] at hj'
      cases hj'
    rw [or_iff_right hnot, or_iff_right hne]
  have hclaims : ∀ b v, Claimed p' s b v ↔ Claimed p s b v := fun b v => by
    rw [claimed_iff, claimed_iff, hshared, hother _ rfl]
  refine ⟨fun b v w hv hw => h.one b v w ((hclaims b v).mp hv) ((hclaims b w).mp hw), fun b v hc => ?_,
    fun id hb => ?_, ?_, fun b hb => ?_⟩
  · rw [hshared]
    simp only [hother (.phase2 s _) rfl]
    exact h.below b v ((hclaims b v).mp hc)
  · rw [hshared]
    simp only [hclaims]
    unfold Bumping at hb
    rw [hpend', Multiset.mem_add, Multiset.mem_add, or_or_or_comm] at hb
    rcases hb with hb | hb
    · obtain ⟨rfl, hphase⟩ := hbump id hb
      refine ⟨Nat.le_refl _, fun b v hc => ?_⟩
      rcases h.below b v hc with hlt | ⟨he, -⟩ | ⟨hdone, -⟩
      · exact Nat.le_of_lt hlt
      · exact Nat.le_of_eq he
      · exact absurd hdone hphase
    · refine h.bumps id ?_
      unfold Bumping
      rw [hpend]
      exact hb.imp Multiset.mem_cons_of_mem Multiset.mem_cons_of_mem
  · have hloops := h.loops
    rw [hpend, retries_cons hj] at hloops
    have hcount : retries (l : Multiset (Work A)) ≤ 1 := (Multiset.countP_le_card _ _).trans hlen
    rw [hpend']
    unfold retries at hloops hcount ⊢
    rw [Multiset.countP_add]
    omega
  · rw [hother _ rfl] at hb
    simp only [hshared, hclaims]
    exact h.quorum b hb

theorem sound_step (hsteady : SteadyRun p a) (hs : (peer A H).step p a = some p') (h : Sound p s) :
    Sound p' s := by
  have hpeers := peers_step hs
  cases turned_step hs s with
  | calm hprop hsent hpend =>
    refine h.congr hprop hpeers (fun b v => ?_) (fun b => by rw [hpend]) (fun id => ?_)
      (by rw [hpend]; exact h.loops)
    · rw [claimed_iff, claimed_iff, hsent, hpend]
    · unfold Bumping
      rw [hpend]
      exact fun hb => hb
  | emit b v rest hpend hshared hpend' =>
    refine h.congr (by rw [hshared]; rfl) hpeers (fun b' v' => ?_) (fun b' => ?_) (fun id => ?_) ?_
    · rw [claimed_iff, claimed_iff, hshared, hpend, hpend']
      simp only [Node.send, List.mem_append, List.mem_singleton, Multiset.mem_cons, Work.emit.injEq]
      exact or_assoc
    · rw [hpend, hpend']
      simp
    · unfold Bumping
      rw [hpend, hpend']
      simp
    · have hloops := h.loops
      rwa [hpend, retries_cons_of_not rfl, ← hpend'] at hloops
  | promise t id k hv src ha htop hshould hshared hpend =>
    subst ha
    obtain ⟨hphase, rfl⟩ := hshould
    have hsent : p'.shared.sent = p.shared.sent := by
      rw [hshared]
      exact (countPromise_frame (s := s) p.shared s (p.shared.proposerID s) k hv src).2.1
    refine sound_promise h (hsteady _ htop) hphase hshared ?_
    rcases hpend with ⟨hq, hpend⟩ | ⟨-, hpend⟩
    · exact promised_quorum hsent hq hpend
    · exact promised_same hsent hpend
  | phase2 b rest hpend hshared hpend' => exact h.phase2 hpend hshared hpend'
  | phase3 hshared hpend =>
    exact h.finish (by rw [hshared]; exact update_self ..) (by rw [hshared]; rfl) hpend
      (.inl (by rw [hshared]; rfl))
  | clean t ha htop hshared hpend =>
    subst ha
    have hnone : ∀ b, .phase2 s b ∉ pending p s := fun b hb => by
      have hnot := hsteady _ htop _ (mem_those.mp hb).1
      simp [moving] at hnot
    exact h.finish (by rw [hshared]; exact update_self ..) (by rw [hshared]; rfl) hpend
      (.inr ⟨by rw [hshared]; exact update_self .., hnone⟩)
  | init t v ha htop hshared hpend =>
    subst ha
    obtain ⟨hsent, hnone⟩ := hsteady _ htop
    refine sound_init (by rw [hshared]; exact hsent) ?_
    rw [hpend]
    have hzero : pending p s = 0 := those_eq_zero.mpr hnone
    rw [hzero, Multiset.cons_zero]
  | retry rest hpend hshared hpend' =>
    exact h.loop (l := [.tick s]) hpend rfl hshared hpend' (by simp [retrying]) (Nat.le_refl 1) (by simp)
  | tick rest hpend hshared hpend' =>
    rcases hpend' with hpend' | hpend' | ⟨hphase, hpend' | hpend'⟩
    · exact h.loop (l := []) hpend rfl hshared (hpend'.trans (zero_add rest).symm) (by simp)
        (Nat.zero_le 1) (by simp)
    · exact h.loop (l := [.tick s]) hpend rfl hshared hpend' (by simp [retrying])
        (Nat.le_refl 1) (by simp)
    · exact h.loop (l := [.bump1 s _]) hpend rfl hshared hpend' (by simp [retrying]) (Nat.le_refl 1)
        (by simp [hphase])
    · exact h.loop (l := [.bump2 s _]) hpend rfl hshared hpend' (by simp [retrying]) (Nat.le_refl 1)
        (by simp [hphase])
  | bump1 t id rest ha htop hpend hshared hpend' =>
    subst ha
    refine h.bump hpend (.inl rfl) (by rw [hshared]; rfl) hpend' ?_
    rw [hshared]
    show id < update p.shared.proposerID s _ s
    rw [update_self]
    exact hsteady _ htop
  | bump2 t id rest ha htop hpend hshared hpend' =>
    subst ha
    refine h.bump hpend (.inr rfl) (by rw [hshared]; rfl) hpend' ?_
    rw [hshared]
    show id < update p.shared.proposerID s _ s
    rw [update_self]
    exact hsteady _ htop

theorem sound_start (h : (peer A H).start p) : Sound p s := by
  obtain ⟨self, paxosID, totalPeers, width, rfl⟩ := h
  have hclaims : ∀ b v, ¬ Claimed ⟨newNode self paxosID totalPeers width, [[]]⟩ s b v := by
    rintro b v (hc | hc) <;> cases hc
  refine ⟨fun b v w hv => absurd hv (hclaims b v), fun b v hc => absurd hc (hclaims b v),
    fun id hb => ?_, Nat.zero_le 1, fun b hb => by cases hb⟩
  rcases hb with hb | hb <;> cases hb

theorem sound_reach (h : (peer A H).Reach SteadyRun p) : Sound p s :=
  h.invariant (I := fun p => Sound p s) (fun _ => sound_start) fun _ _ _ => sound_step

/-! ### Two goroutines that have yet to move on to phase 2 -/

/-- A proposal that is about to be broadcast. -/
def announcing : Work A → Bool
  | .emit (.propose ..) => true
  | _ => false

theorem onTop_announcing (n : Node A) (j : Work A) (e : Effect (Node A) (Work A))
    (he : exec H n j = some e) :
    (∀ j' ∈ e.next.tail, ¬ announcing j' = true) ∧
      ∀ stack ∈ e.spawned, ∀ j' ∈ stack.tail, ¬ announcing j' = true := by
  -- a task that announces a proposal has to do with the proposer of its step
  have htouched : ∀ j' ∈ e.next ++ e.spawned.flatten, announcing j' = true → ∃ s, touches s j = true :=
    fun j' hj' hann => by
    cases j' with
    | emit m =>
      cases m with
      | propose s b v =>
        refine ⟨s, Bool.eq_true_of_not_eq_false fun hnot => ?_⟩
        have hmine := (calmAt_exec (H := H) hnot e he).mine _ hj'
        simp [mine] at hmine
      | _ => cases hann
    | _ => cases hann
  by_cases hj : ∃ s, touches s j = true
  · obtain ⟨s, htouch⟩ := hj
    cases j with
    | promiseLock s' id k hv src =>
      simp only [exec, promiseSection] at he
      split_ifs at he <;> cases he <;> simp [announcing]
    | tick s' =>
      obtain ⟨-, hspawned, hnext⟩ := tickSection_cases he
      rw [hspawned]
      rcases hnext with hnext | hnext | ⟨-, hnext | hnext⟩ <;> simp [hnext]
    | emit m => cases he; simp
    | phase2 s' b => cases he; simp
    | phase3 s' => cases he; simp
    | cleanProposer s' => cases he; simp
    | tagInit s' v => cases he; simp [announcing]
    | retry s' => cases he; simp
    | bump1 s' id => cases he; simp [announcing]
    | bump2 s' id => cases he; simp [announcing]
    | _ => cases htouch
  · refine ⟨fun j' hj' hann => hj (htouched j' (List.mem_append_left _ (List.mem_of_mem_tail hj')) hann),
      fun stack hstack j' hj' hann => hj (htouched j' (List.mem_append_right _ ?_) hann)⟩
    exact List.mem_flatten.mpr ⟨stack, hstack, List.mem_of_mem_tail hj'⟩

theorem goes_emit {t : ℕ} {m : Message A} (htop : p.top t = some (.emit m)) :
    ∃ p', (peer A H).Goes SteadyRun p p' ∧ p'.shared = p.shared.send m ∧ ∀ t' j', t' ≠ t →
    p.top t' = some j' → p'.top t' = some j' := by
  obtain ⟨p', hrun, hshared, -, hkeep⟩ := run_of_top (f := exec H) htop rfl
  refine ⟨p', .single ⟨.run t, fun j hj => ?_, hrun⟩, hshared, hkeep⟩
  cases htop.symm.trans hj
  exact True.intro

/-- A promise with another value, while a goroutine has yet to move on to phase 2: sooner or later,
both values are proposed. -/
theorem exists_two {t id k : ℕ} {src : Option A} (h : Sound p s)
    (htops : p.OnTop fun j => announcing j = true)
    (htop : p.top t = some (.promiseLock s id k (some w) src))
    (hshould : shouldProcessPromise p.shared s id) (hmove : .phase2 s id ∈ p.tasks)
    (hk : p.shared.proposerHighestAcceptedID s < k) (hw : w ≠ p.shared.proposerValue s)
    (hs : (peer A H).step p (.run t) = some p') :
    ∃ p'', (peer A H).Goes SteadyRun p' p'' ∧ ¬ OneValue p''.shared := by
  have hmem : .phase2 s id ∈ pending p s := mem_those.mpr ⟨hmove, beq_self_eq_true s⟩
  have hnow := hshould
  obtain ⟨hphase, rfl⟩ := hnow
  obtain ⟨⟨v, hclaim⟩, hquorum⟩ := h.quorum _ hmem
  -- the proposal that has been claimed has the value before the promise
  obtain rfl : p.shared.proposerValue s = v := by
    rcases h.below _ v hclaim with hlt | ⟨-, hval⟩ | ⟨hdone, -⟩
    · exact absurd hlt (Nat.lt_irrefl _)
    · exact (hval hphase).2
    · omega
  -- the promise is counted, and its value is taken
  obtain ⟨hpeers, hsent, -⟩ := countPromise_frame (s := s) p.shared s
    (p.shared.proposerID s) k (some w) src
  have hvalue : (countPromise p.shared s (p.shared.proposerID s) k (some w) src).proposerValue s = w := by
    simp only [countPromise, if_pos hk, update_self]
  have he : exec H p.shared (.promiseLock s (p.shared.proposerID s) k (some w) src) =
      goOn (countPromise p.shared s (p.shared.proposerID s) k (some w) src)
        [.emit (.propose s (p.shared.proposerID s) w), .propose s (p.shared.proposerID s) w
          (some (countPromise p.shared s (p.shared.proposerID s) k (some w) src).self),
            .phase2 s (p.shared.proposerID s)] := by
    simp only [exec, promiseSection]
    rw [if_neg (not_not_intro hshould), if_pos, hvalue]
    exact (congrArg getQuorum hpeers).le.trans ((hquorum rfl hphase).trans (card_promises_le ..))
  obtain ⟨p₁, hrun, hshared₁, hnext, hkeep⟩ := run_of_top htop he
  cases hrun.symm.trans hs
  have htop₁ := hnext _ rfl
  have hsent' : p'.shared.sent = p.shared.sent := by
    rw [hshared₁]
    exact hsent
  rcases hclaim with hclaim | hclaim
  · -- the other proposal has been broadcast already
    obtain ⟨p₂, hgo, hshared₂, -⟩ := goes_emit (H := H) htop₁
    refine ⟨p₂, hgo, fun hone => hw (hone s (p.shared.proposerID s) w _ ?_ ?_)⟩
    · rw [hshared₂]
      exact List.mem_append_right _ (List.mem_singleton_self _)
    · rw [hshared₂]
      exact List.mem_append_left _ (hsent' ▸ hclaim)
  · -- the other proposal is broadcast first
    obtain ⟨t', htop'⟩ := OnTop.exists_top htops rfl hclaim
    have hne : t' ≠ t := by
      rintro rfl
      cases htop.symm.trans htop'
    obtain ⟨p₂, hgo₂, hshared₂, hkeep₂⟩ := goes_emit (H := H) (hkeep t' _ hne htop')
    obtain ⟨p₃, hgo₃, hshared₃, -⟩ := goes_emit (H := H) (hkeep₂ t _ hne.symm htop₁)
    refine ⟨p₃, hgo₂.trans hgo₃, fun hone => hw (hone s (p.shared.proposerID s) w _ ?_ ?_)⟩
    · rw [hshared₃]
      exact List.mem_append_right _ (List.mem_singleton_self _)
    · rw [hshared₃, hshared₂]
      exact List.mem_append_left _ (List.mem_append_right _ (List.mem_singleton_self _))

/-- **Two proposals with the same step and number have the same value**, in every run that is steady:
no promise makes the node adopt another value while a goroutine has yet to move on to phase 2, the
proposer is not set up again after it has proposed or cleaned up too early, and no retry wraps around
to a lower number. If a promise makes the node adopt another value then, there is a way to go on after
which both values have been proposed. -/
theorem proposals_iff (h : (peer A H).Reach SteadyRun p) : OneValue p.shared ∧
    ∀ t s id k hv src p', p.top t = some (.promiseLock s id k hv src) →
    (peer A H).step p (.run t) = some p' →
      (SteadyRun p (.run t) ↔ ∀ p'', (peer A H).Goes SteadyRun p' p'' → OneValue p''.shared) := by
  have hsound : ∀ {p}, (peer A H).Reach SteadyRun p → OneValue p.shared := fun hp s b v w hv hw =>
    (sound_reach hp).one b v w (.inl hv) (.inl hw)
  refine ⟨hsound h, fun t s id k hv src p' htop hs => ⟨fun hsteady p'' hgo => ?_, fun hall => ?_⟩⟩
  · exact hsound ((h.step hsteady hs).goes hgo)
  · intro j hj
    cases htop.symm.trans hj
    cases hv with
    | none => exact True.intro
    | some w =>
      intro hshould hmove hk
      by_contra hw
      obtain ⟨p'', hgo, hnot⟩ := exists_two (sound_reach h) (h.invariant (fun _ => onTop_start)
        fun _ _ _ _ => onTop_step onTop_announcing) htop hshould hmove hk hw hs
      exact hnot (hall p'' hgo)

/-! ### Runs of three peers -/

instance (p : Pool (Node A) (Work A)) (j : Work A) : Decidable (Steady p j) := by
  unfold Steady
  split <;> infer_instance

instance (p : Pool (Node A) (Work A)) : ∀ a, Decidable (SteadyRun p a)
  | .receive .. | .tag .. => .isTrue True.intro
  | .run t => inferInstanceAs (Decidable (∀ j ∈ p.top t, Steady p j))

/-- `Tag` has sent the prepare message for step 0 to the others. -/
def prepared : List (Event (Fin 3)) := .tag "mine" "hash" :: List.replicate 6 (.run 1)

/-- The promise of another node for step 0 comes in, and is counted. -/
def promised (id : ℕ) (src : Fin 3) (accepted : Option (ℕ × PaxosValue)) : List (Event (Fin 3)) :=
  [.receive (.promise (some 0) 0 id ((accepted.map Prod.fst).getD 0) (accepted.map Prod.snd)) (some src),
    .run 0, .run 0]

/-- `Tag` has started its retry loop, and the first tick has raised the number
and sent it to the others. -/
def retried : List (Event (Fin 3)) := prepared ++ List.replicate 8 (.run 1) ++ List.replicate 5 (.run 2)

/-- The retry loop raises the number, a promise comes after the node has counted its own, and
the proposal is broadcast. -/
theorem proposals_once : ∃ p : Pool (Node (Fin 3)) (Work (Fin 3)),
    (peer (Fin 3) digest).Reach SteadyRun p ∧
    .propose 0 6 ⟨"mine", "hash"⟩ ∈ p.shared.sent ∧ OneValue p.shared := by
  have hrun : (((peer (Fin 3) digest).runOn SteadyRun ⟨newNode 0 3 3 (.bits 64), [[]]⟩ (retried ++
      List.replicate 4 (.run 2) ++ promised 6 1 none ++ [.run 0])).map fun p =>
        decide (.propose 0 6 ⟨"mine", "hash"⟩ ∈ p.shared.sent)) = some true := by decide +kernel
  obtain ⟨p, hp, hsent⟩ := Option.map_eq_some_iff.mp hrun
  have hreach : (peer (Fin 3) digest).Reach SteadyRun p := .runOn (.start ⟨0, 3, 3, .bits 64, rfl⟩) hp
  exact ⟨p, hreach, of_decide_eq_true hsent, (proposals_iff hreach).1⟩

/-- The node has proposed both values under the number. -/
def bothSent (id : ℕ) (p : Pool (Node (Fin 3)) (Work (Fin 3))) : Bool :=
  decide (.propose 0 id ⟨"mine", "hash"⟩ ∈ p.shared.sent) &&
    decide (.propose 0 id ⟨"other", "hash"⟩ ∈ p.shared.sent)

theorem not_oneValue {id : ℕ} {p : Pool (Node (Fin 3)) (Work (Fin 3))} (h : bothSent id p = true) :
    .propose 0 id ⟨"mine", "hash"⟩ ∈ p.shared.sent ∧ .propose 0 id ⟨"other", "hash"⟩ ∈ p.shared.sent ∧
      ¬ OneValue p.shared := by
  obtain ⟨hmine, hother⟩ := (Bool.and_eq_true _ _).mp h
  have hmine := of_decide_eq_true hmine
  have hother := of_decide_eq_true hother
  exact ⟨hmine, hother, fun h => absurd (h 0 id _ _ hmine hother) (by decide)⟩

/-- **Two values for one proposal**: the promise of node 1 comes before the node counts its own, which
completes the quorum; before the goroutine of `Tag` broadcasts its value, the promise of node 2, which
has accepted another value of a lower number, comes in. -/
theorem two_values : ∃ p : Pool (Node (Fin 3)) (Work (Fin 3)), (peer (Fin 3) digest).run
    ⟨newNode 0 3 3 (.bits 64), [[]]⟩ (prepared ++ promised 3 1 none ++ List.replicate 4 (.run 1) ++
      promised 3 2 (some (2, ⟨"other", "hash"⟩)) ++ [.run 1, .run 0]) = some p ∧
        .propose 0 3 ⟨"mine", "hash"⟩ ∈ p.shared.sent ∧ .propose 0 3 ⟨"other", "hash"⟩ ∈ p.shared.sent ∧
          ¬ OneValue p.shared := by
  have hrun : ((peer (Fin 3) digest).run ⟨newNode 0 3 3 (.bits 64), [[]]⟩
    (prepared ++ promised 3 1 none ++ List.replicate 4 (.run 1) ++ promised 3 2
    (some (2, ⟨"other", "hash"⟩)) ++ [.run 1, .run 0])).map (bothSent 3) = some true := by decide +kernel
  obtain ⟨p, hp, hboth⟩ := Option.map_eq_some_iff.mp hrun
  exact ⟨p, hp, not_oneValue hboth⟩

/-- A tick of the retry loop that raises the number, while the node has promised a higher one. -/
def raised : List (Event (Fin 3)) := List.replicate 6 (.run 2)

/-- The greatest number is promised, taken by the retry loop, and proposed. The next number is 2. A
promise for it has another value, and the retry loop takes the greatest number once more. -/
def wrapping : List (Event (Fin 3)) :=
  .receive (.prepare 0 (2 ^ 64 - 1) (some 1)) (some 1) :: List.replicate 6 (.run 0) ++ prepared ++
    List.replicate 3 (.run 1) ++ raised ++ promised (2 ^ 64 - 1) 1 none ++ promised (2 ^ 64 - 1) 2 none ++
      List.replicate 4 (.run 0) ++ raised ++ promised 2 1 (some (1, ⟨"other", "hash"⟩)) ++ raised ++
        promised (2 ^ 64 - 1) 1 none ++ promised (2 ^ 64 - 1) 2 none ++ [.run 0]

/-- **Numbers that wrap around**: a `PREPARE` of the greatest number makes the node propose two values
under it. No promise comes before a move to phase 2, and the proposer is set up once. -/
theorem wrapped_values : ∃ p : Pool (Node (Fin 3)) (Work (Fin 3)), (peer (Fin 3) digest).run
    ⟨newNode 0 3 3 (.bits 64), [[]]⟩ wrapping = some p ∧
    .propose 0 (2 ^ 64 - 1) ⟨"mine", "hash"⟩ ∈ p.shared.sent ∧
      .propose 0 (2 ^ 64 - 1) ⟨"other", "hash"⟩ ∈ p.shared.sent ∧ ¬ OneValue p.shared := by
  have hrun : ((peer (Fin 3) digest).run ⟨newNode 0 3 3 (.bits 64), [[]]⟩ wrapping).map
    (bothSent (2 ^ 64 - 1)) = some true := by decide +kernel
  obtain ⟨p, hp, hboth⟩ := Option.map_eq_some_iff.mp hrun
  exact ⟨p, hp, not_oneValue hboth⟩

end Namecoin.Paxos.Proposals
