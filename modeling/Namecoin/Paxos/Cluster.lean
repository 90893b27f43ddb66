import Namecoin.Lib.Ballots
import Namecoin.Paxos.Defs

/-! # Nodes that agree

`N` nodes with the numbers 1 to `N`, each running one `Tag` at a time. A handler, a tick of a retry
loop and a part of `Tag` are one step each, and a message that a node has sent is delivered at any
time, any number of times, or never.

The votes of a step are the accepts that acceptors have sent or are about to send, and an acceptor
has left the ballots below the number it has promised. What holds of every node is put in three
parts, one for each of its roles:

* `Acceptor`: votes are for proposed values, and promises say which votes came before them;
* `Proposer`: proposals are for safe values, and what a proposer has adopted covers the
  promises it has counted;
* `Learner`: blocks that are sent, kept or committed are those of a decided value on top of the
  block before (`Legit`). -/

namespace Namecoin.Paxos.Cluster

open Function
open Lib.ByteStrings Lib.Systems Lib.Ballots State.Commands Paxos.Defs

/-! ### The system -/

/-- The nodes, each named by its place. -/
abbrev World (N : ℕ) := Fin N → Node (Fin N)

variable {N : ℕ} (H : Bytes → Digest)

/-- A message comes from a node that has sent it. -/
def allowed (W : World N) : Action (Fin N) → Bool
  | .receive m (some i) => decide (m ∈ (W i).sent)
  | .receive _ none => false
  | _ => true

/-- **The cluster**: nodes that start with an empty storage and take turns in any order. -/
def cluster (N : ℕ) : System (World N) (Fin N × Action (Fin N)) where
  start W := ∀ i, W i = newNode i (i + 1) N .unbounded
  step W a := if allowed W a.2 then (nodeStep H (W a.1) a.2).map (update W a.1) else none

/-! ### Votes, proposals and decisions -/

/-- The node has accepted the value in the ballot; it has sent the accept, or is about to. -/
def Voted (n : Node (Fin N)) (s b : ℕ) (v : PaxosValue) : Prop :=
  Message.accept s b v ∈ n.sent ∨ Job.accept s b v ∈ n.delayed

/-- A node has sent the proposal. -/
def Proposed (W : World N) (s b : ℕ) (v : PaxosValue) : Prop := ∃ i, Message.propose s b v ∈ (W i).sent

/-- The votes of a step. -/
def pollOf (W : World N) (s : ℕ) : Poll (Fin N) PaxosValue where
  voted a b v := Voted (W a) s b v
  left a b := b < (W a).promisedID s

/-- A value that a majority has accepted in one ballot of the step. -/
def Decided (W : World N) (s : ℕ) (v : PaxosValue) : Prop := Chosen Majority (pollOf W s) v

/-- No other value can be decided in a lower ballot of the step. -/
def SafeIn (W : World N) (s b : ℕ) (v : PaxosValue) : Prop := Safe Majority (pollOf W s) b v

/-- The value has a name and a metahash. -/
def Named (v : PaxosValue) : Prop := blank v.filename = false ∧ blank v.metahash = false

theorem named_trimSpace {x : String} (h : trimSpace x ≠ "") : blank (trimSpace x) = false := by
  unfold trimSpace at h ⊢
  have hne : (x.toList.dropWhile isSpace).rdropWhile isSpace ≠ [] := fun he => h (by rw [he])
  rw [Bool.eq_false_iff]
  unfold blank
  rw [String.toList_ofList, ne_eq, List.all_eq_true]
  exact fun hall => List.rdropWhile_last_not isSpace _ hne (hall _ (List.getLast_mem hne))

/-- The blocks of decided values, each on top of the one before. -/
inductive Legit (W : World N) : ℕ → BlockchainBlock → Prop
  | zero {v : PaxosValue} : Named v → Decided W 0 v → Legit W 0 (blockOf H 0 v (List.replicate 32 0))
  | succ {s : ℕ} {B : BlockchainBlock} {v : PaxosValue} : Legit W s B → Named v → Decided W (s + 1) v →
    Legit W (s + 1) (blockOf H (s + 1) v B.hash)

/-- The ballot is one of the node's own. -/
def Owns (n : Node (Fin N)) (b : ℕ) : Prop := 0 < b ∧ slotOf b n.totalPeers = n.paxosID

/-! ### What holds of a node -/

variable {H} {W W' : World N} {n n' n₁ n₂ : Node (Fin N)} {i : Fin N} {s b : ℕ} {v w : PaxosValue}

/-- The node keeps its address and its number. -/
structure Config (i : Fin N) (n : Node (Fin N)) : Prop where
  self : n.self = i
  paxosID : n.paxosID = i + 1
  totalPeers : n.totalPeers = N
  width : n.width = .unbounded

/-- The fields that are never written. -/
def configView (n : Node (Fin N)) := (n.self, n.paxosID, n.totalPeers, n.width)

/-- What an acceptor has voted for and promised. -/
structure Acceptor (W : World N) (n : Node (Fin N)) : Prop where
  voted : ∀ {s b v}, Voted n s b v → 0 < b ∧ b ≤ n.promisedID s ∧ Proposed W s b v
  none : ∀ {s b v}, n.acceptedValue s = none → ¬ Voted n s b v
  some : ∀ {s v}, n.acceptedValue s = some v → Voted n s (n.acceptedID s) v ∧
    ∀ b w, Voted n s b w → b ≤ n.acceptedID s
  promise : ∀ {r s b h hv}, Message.promise r s b h hv ∈ n.sent → b ≤ n.promisedID s ∧
    (hv = Option.none → ∀ c w, Voted n s c w → b ≤ c) ∧
    ∀ v, hv = Option.some v → Voted n s h v ∧ h < b ∧ ∀ c w, Voted n s c w → c < b → c ≤ h

/-- A proposer in the course of a step: its number, its value and the promises for them. -/
structure Running (W : World N) (n : Node (Fin N)) (s : ℕ) : Prop where
  owns : Owns n (n.proposerID s)
  named : Named (n.proposerValue s)
  adopted : n.proposerHighestAcceptedID s = 0 ∨ n.proposerHighestAcceptedID s < n.proposerID s ∧
    Proposed W s (n.proposerHighestAcceptedID s) (n.proposerValue s)
  promises : ∀ a ∈ n.proposerPromises s (n.proposerID s), ∃ r h hv,
    Message.promise r s (n.proposerID s) h hv ∈ (W a).sent ∧
      ∀ v, hv = some v → h ≤ n.proposerHighestAcceptedID s

/-- The number has been used up in the step. -/
def Past (n : Node (Fin N)) (s b : ℕ) : Prop :=
  s < n.currentStep ∨ n.proposerPhase s ≠ 0 ∧
    (b < n.proposerID s ∨ b = n.proposerID s ∧ n.proposerPhase s ≠ 1)

/-- What a proposer has sent and is about to send. -/
structure Proposer (W : World N) (n : Node (Fin N)) : Prop where
  propose : ∀ {s b v}, Message.propose s b v ∈ n.sent → Owns n b ∧ Named v ∧ SafeIn W s b v ∧ Past n s b
  unique : ∀ {s b v w}, Message.propose s b v ∈ n.sent → Message.propose s b w ∈ n.sent → v = w
  running : ∀ {s}, n.currentStep ≤ s → n.proposerPhase s ≠ 0 → Running W n s
  tagged : ∀ {s}, n.currentStep ≤ s → n.proposerPhase s ≠ 0 →
    (∃ v, n.tag = .sending s v) ∨ ∃ v ch, n.tag = .waiting s v ch
  waiting : ∀ {s v ch}, n.tag = .waiting s v ch → n.currentStep ≤ s → ∃ c, ch = some c ∧
    c ∈ n.stepWaiters s
  value : ∀ {v}, (n.tag = .looping v ∨ ∃ s, n.tag = .sending s v ∨ ∃ ch, n.tag = .waiting s v ch) →
    Named v

/-- What a learner has counted, sent and committed. -/
structure Learner (H : Bytes → Digest) (W : World N) (n : Node (Fin N)) : Prop where
  counts : ∀ {s b a}, a ∈ n.acceptCount s b → ∃ v, Message.accept s b v ∈ (W a).sent
  sent : ∀ {s B}, Message.tlc s B ∈ n.sent → Legit H W s B
  delayed : ∀ {s B}, Job.tlc s B ∈ n.delayed → Legit H W s B
  block : ∀ {s B}, n.tlcBlock.lookup s = some B → Legit H W s B
  commits : ∀ {s B}, (s, B) ∈ n.commits → Legit H W s B
  first : n.currentStep = 0 → n.lastBlock = []
  last : ∀ {s}, n.currentStep = s + 1 → ∃ B, Legit H W s B ∧ n.lastBlock = B.hash

/-- The parts together. -/
structure NodeOK (H : Bytes → Digest) (W : World N) (i : Fin N) (n : Node (Fin N)) : Prop where
  config : Config i n
  acceptor : Acceptor W n
  proposer : Proposer W n
  learner : Learner H W n

/-- **The invariant.** -/
def AllOK (H : Bytes → Digest) (W : World N) : Prop := ∀ i, NodeOK H W i (W i)

/-! ### One value to a step -/

theorem proposed_unique (h : AllOK H W) (hv : Proposed W s b v) (hw : Proposed W s b w) : v = w := by
  obtain ⟨i, hi⟩ := hv
  obtain ⟨j, hj⟩ := hw
  have hi' := ((h i).proposer.propose hi).1.2
  have hj' := ((h j).proposer.propose hj).1.2
  rw [(h i).config.paxosID, (h i).config.totalPeers] at hi'
  rw [(h j).config.paxosID, (h j).config.totalPeers] at hj'
  have hij : i = j := Fin.ext (by omega)
  subst hij
  exact (h i).proposer.unique hi hj

theorem proposed_safe (h : AllOK H W) (hv : Proposed W s b v) : SafeIn W s b v := by
  obtain ⟨i, hi⟩ := hv
  exact ((h i).proposer.propose hi).2.2.1

theorem coherent (h : AllOK H W) (s : ℕ) : Coherent Majority (pollOf W s) where
  unique hv hw := proposed_unique h ((h _).acceptor.voted hv).2.2 ((h _).acceptor.voted hw).2.2
  safe hv := proposed_safe h ((h _).acceptor.voted hv).2.2

/-- **A step decides one value.** -/
theorem decided_unique (h : AllOK H W) (hv : Decided W s v) (hw : Decided W s w) : v = w :=
  chosen_unique majority_meeting (coherent h s) hv hw

theorem legit_unique (h : AllOK H W) : ∀ {s : ℕ} {B B' : BlockchainBlock}, Legit H W s B →
    Legit H W s B' → B = B'
  | _, _, _, .zero _ hv, .zero _ hw => by rw [decided_unique h hv hw]
  | _, _, _, .succ hB _ hv, .succ hB' _ hw => by rw [decided_unique h hv hw, legit_unique h hB hB']

theorem legit_prevHash (h : AllOK H W) {B B' : BlockchainBlock} (hB : Legit H W s B)
    (hB' : Legit H W (s + 1) B') :
    B'.prevHash = B.hash := by
  cases hB' with
  | succ hB₀ _ _ => rw [legit_unique h hB hB₀, blockOf]

theorem length_blockOf (prev : Bytes) : (blockOf H s v prev).hash.length = 32 := Subtype.property (H _)

theorem legit_length {B : BlockchainBlock} (hB : Legit H W s B) : B.hash.length = 32 := by
  cases hB with
  | zero _ _ => exact length_blockOf _
  | succ _ _ _ => exact length_blockOf _

/-! ### Later worlds -/

/-- A node votes only in ballots it has not left, and takes nothing back. -/
structure NodeLater (n n' : Node (Fin N)) : Prop where
  sent : ∀ {m}, m ∈ n.sent → m ∈ n'.sent
  voted : ∀ {s b v}, Voted n s b v → Voted n' s b v
  promised : ∀ s, n.promisedID s ≤ n'.promisedID s
  fresh : ∀ {s b v}, Voted n' s b v → Voted n s b v ∨ n.promisedID s ≤ b

theorem nodeLater_of_eq (hsent : ∀ {m}, m ∈ n.sent → m ∈ n'.sent)
    (hvoted : ∀ {s b v}, Voted n' s b v ↔ Voted n s b v) (hpromised : n'.promisedID = n.promisedID) :
    NodeLater n n' :=
  ⟨hsent, hvoted.mpr, fun s => (congrFun hpromised s).ge, fun h => .inl (hvoted.mp h)⟩

theorem NodeLater.refl (n : Node (Fin N)) : NodeLater n n :=
  nodeLater_of_eq (fun h => h) Iff.rfl rfl

/-- Every node has gone on. -/
def WorldLater (W W' : World N) : Prop := ∀ a, NodeLater (W a) (W' a)

theorem worldLater_update (h : NodeLater (W i) n) : WorldLater W (update W i n) := by
  intro a
  by_cases ha : a = i
  · subst ha
    rw [update_self]
    exact h
  · rw [update_of_ne ha]
    exact .refl _

theorem WorldLater.poll (h : WorldLater W W') (s : ℕ) : Later (pollOf W s) (pollOf W' s) where
  voted hv := (h _).voted hv
  left hl := Nat.lt_of_lt_of_le hl ((h _).promised s)
  fresh hv := (h _).fresh hv |>.imp_right Nat.not_lt.mpr

theorem Proposed.later (h : WorldLater W W') (hp : Proposed W s b v) : Proposed W' s b v := by
  obtain ⟨i, hi⟩ := hp
  exact ⟨i, (h i).sent hi⟩

theorem SafeIn.later (h : WorldLater W W') (hs : SafeIn W s b v) : SafeIn W' s b v :=
  Safe.later (h.poll s) hs

theorem Legit.later (h : WorldLater W W') :
    ∀ {s : ℕ} {B : BlockchainBlock}, Legit H W s B → Legit H W' s B
  | _, _, .zero hn hv => .zero hn (Chosen.later (h.poll _) hv)
  | _, _, .succ hB hn hv => .succ (hB.later h) hn (Chosen.later (h.poll _) hv)

theorem Acceptor.later (h : WorldLater W W') (ha : Acceptor W n) : Acceptor W' n where
  voted hv := by
    obtain ⟨h₁, h₂, h₃⟩ := ha.voted hv
    exact ⟨h₁, h₂, h₃.later h⟩
  none := ha.none
  some := ha.some
  promise := ha.promise

theorem Running.later (h : WorldLater W W') (hr : Running W n s) : Running W' n s where
  owns := hr.owns
  named := hr.named
  adopted := hr.adopted.imp_right fun ⟨h₁, h₂⟩ => ⟨h₁, h₂.later h⟩
  promises a ha := by
    obtain ⟨r, k, hv, hm, hk⟩ := hr.promises a ha
    exact ⟨r, k, hv, (h a).sent hm, hk⟩

theorem Proposer.later (h : WorldLater W W') (hp : Proposer W n) : Proposer W' n where
  propose hm := by
    obtain ⟨h₁, h₂, h₃, h₄⟩ := hp.propose hm
    exact ⟨h₁, h₂, h₃.later h, h₄⟩
  unique := hp.unique
  running hc hs := (hp.running hc hs).later h
  tagged := hp.tagged
  waiting := hp.waiting
  value := hp.value

theorem Learner.later (h : WorldLater W W') (hl : Learner H W n) : Learner H W' n where
  counts ha := by
    obtain ⟨v, hv⟩ := hl.counts ha
    exact ⟨v, (h _).sent hv⟩
  sent hm := (hl.sent hm).later h
  delayed hm := (hl.delayed hm).later h
  block hm := (hl.block hm).later h
  commits hm := (hl.commits hm).later h
  first := hl.first
  last hc := by
    obtain ⟨B, hB, he⟩ := hl.last hc
    exact ⟨B, hB.later h, he⟩

theorem NodeOK.later (h : WorldLater W W') (hn : NodeOK H W i n) : NodeOK H W' i n :=
  ⟨hn.config, hn.acceptor.later h, hn.proposer.later h, hn.learner.later h⟩

/-! ### Fields that a role does not look at -/

/-- The fields an acceptor looks at, besides its messages. -/
def acceptorView (n : Node (Fin N)) := (n.promisedID, n.acceptedID, n.acceptedValue)

/-- The fields a proposer looks at, besides its messages. -/
def proposerView (n : Node (Fin N)) :=
  (n.paxosID, n.totalPeers, n.currentStep, n.proposerPhase, n.proposerID, n.proposerPromises,
    n.proposerHighestAcceptedID, n.proposerValue, n.tag, n.stepWaiters)

/-- The fields a learner looks at, besides its messages. -/
def learnerView (n : Node (Fin N)) := (n.currentStep, n.acceptCount, n.tlcBlock, n.commits, n.lastBlock)

theorem Acceptor.frame (ha : Acceptor W n) (hview : acceptorView n' = acceptorView n)
    (hvoted : ∀ {s b v}, Voted n' s b v ↔ Voted n s b v)
    (hsent : ∀ {r s b h hv}, Message.promise r s b h hv ∈ n'.sent → Message.promise r s b h hv ∈ n.sent) :
    Acceptor W n' := by
  simp only [acceptorView, Prod.mk.injEq] at hview
  obtain ⟨h₁, h₂, h₃⟩ := hview
  refine ⟨fun hv => ?_, fun hn hv => ?_, fun hs => ?_, fun hm => ?_⟩
  · rw [h₁]
    exact ha.voted (hvoted.mp hv)
  · rw [h₃] at hn
    exact ha.none hn (hvoted.mp hv)
  · rw [h₃] at hs
    simp only [hvoted, h₂]
    exact ha.some hs
  · simp only [hvoted, h₁]
    exact ha.promise (hsent hm)

theorem Running.frame (hr : Running W n s)
    (howns : (n'.paxosID, n'.totalPeers) = (n.paxosID, n.totalPeers))
    (hid : n'.proposerID s = n.proposerID s) (hval : n'.proposerValue s = n.proposerValue s)
    (hhigh : n'.proposerHighestAcceptedID s = n.proposerHighestAcceptedID s)
    (hprom : n'.proposerPromises s = n.proposerPromises s) : Running W n' s := by
  obtain ⟨h₁, h₂⟩ := Prod.mk.inj howns
  refine ⟨?_, ?_, ?_, ?_⟩
  · unfold Owns
    rw [h₁, h₂, hid]
    exact hr.owns
  · rw [hval]
    exact hr.named
  · rw [hid, hval, hhigh]
    exact hr.adopted
  · rw [hid, hhigh, hprom]
    exact hr.promises

theorem Proposer.frame (hp : Proposer W n) (hview : proposerView n' = proposerView n)
    (hsent : ∀ {s b v}, Message.propose s b v ∈ n'.sent → Message.propose s b v ∈ n.sent) :
    Proposer W n' := by
  simp only [proposerView, Prod.mk.injEq] at hview
  obtain ⟨h₁, h₂, h₃, h₄, h₅, h₆, h₇, h₈, h₉, h₁₀⟩ := hview
  refine ⟨fun hm => ?_, fun hm hm' => hp.unique (hsent hm) (hsent hm'), fun hc hs => ?_, fun hc hs => ?_,
    fun ht hc => ?_, fun ht => ?_⟩
  · simp only [Owns, Past, h₁, h₂, h₃, h₄, h₅]
    exact hp.propose (hsent hm)
  · rw [h₃] at hc
    rw [h₄] at hs
    exact (hp.running hc hs).frame (by rw [h₁, h₂]) (by rw [h₅]) (by rw [h₈]) (by rw [h₇]) (by rw [h₆])
  · rw [h₃] at hc
    rw [h₄] at hs
    rw [h₉]
    exact hp.tagged hc hs
  · rw [h₉] at ht
    rw [h₃] at hc
    rw [h₁₀]
    exact hp.waiting ht hc
  · rw [h₉] at ht
    exact hp.value ht

theorem Learner.frame (hl : Learner H W n) (hview : learnerView n' = learnerView n)
    (hsent : ∀ {s B}, Message.tlc s B ∈ n'.sent → Message.tlc s B ∈ n.sent)
    (hdelayed : ∀ {s B}, Job.tlc s B ∈ n'.delayed → Job.tlc s B ∈ n.delayed) : Learner H W n' := by
  simp only [learnerView, Prod.mk.injEq] at hview
  obtain ⟨h₁, h₂, h₃, h₄, h₅⟩ := hview
  refine ⟨fun ha => ?_, fun hm => hl.sent (hsent hm), fun hm => hl.delayed (hdelayed hm),
    fun hb => ?_, fun hm => ?_, fun hc => ?_, fun hc => ?_⟩
  · rw [h₂] at ha
    exact hl.counts ha
  · rw [h₃] at hb
    exact hl.block hb
  · rw [h₄] at hm
    exact hl.commits hm
  · rw [h₁] at hc
    rw [h₅]
    exact hl.first hc
  · rw [h₁] at hc
    rw [h₅]
    exact hl.last hc

theorem Config.frame (hc : Config i n) (hview : configView n' = configView n) : Config i n' := by
  simp only [configView, Prod.mk.injEq] at hview
  obtain ⟨h₁, h₂, h₃, h₄⟩ := hview
  exact ⟨h₁.trans hc.self, h₂.trans hc.paxosID, h₃.trans hc.totalPeers, h₄.trans hc.width⟩

/-! ### One node at a time -/

/-- The invariant holds with the node in the given state. -/
def Fits (H : Bytes → Digest) (W : World N) (i : Fin N) (n : Node (Fin N)) : Prop :=
  AllOK H (update W i n)

theorem fits_self : Fits H W i (W i) ↔ AllOK H W := by rw [Fits, update_eq_self]

theorem Fits.node (h : Fits H W i n) : NodeOK H (update W i n) i n := by
  have := h i
  rwa [update_self] at this

/-- **A node goes on**: the others are as before, and the node itself is judged in the new world. -/
theorem Fits.next (h : Fits H W i n) (hl : NodeLater n n')
    (hok : WorldLater (update W i n) (update W i n') → NodeOK H (update W i n') i n →
      NodeOK H (update W i n') i n') : Fits H W i n' := by
  have hworld : WorldLater (update W i n) (update W i n') := by
    have := worldLater_update (W := update W i n) (i := i) (n := n') (by rwa [update_self])
    rwa [update_idem] at this
  intro j
  by_cases hj : j = i
  · subst hj
    rw [update_self]
    exact hok hworld (h.node.later hworld)
  · have hother := (h j).later hworld
    rw [update_of_ne hj] at hother ⊢
    exact hother

theorem Fits.silent (h : Fits H W i n)
    (hview : (configView n', acceptorView n') = (configView n, acceptorView n)) (hsent : n'.sent = n.sent)
    (hdelayed : n'.delayed = n.delayed)
    (hok : WorldLater (update W i n) (update W i n') → NodeOK H (update W i n') i n →
      Proposer (update W i n') n' ∧ Learner H (update W i n') n') : Fits H W i n' := by
  obtain ⟨hconfig, hacceptor⟩ := Prod.mk.inj hview
  have hvoted : ∀ {s b v}, Voted n' s b v ↔ Voted n s b v := by
    unfold Voted
    rw [hsent, hdelayed]
  refine h.next (nodeLater_of_eq (fun hm => hsent ▸ hm) hvoted (congrArg Prod.fst hacceptor))
    fun hw ok => ?_
  obtain ⟨hp, hl⟩ := hok hw ok
  exact ⟨ok.config.frame hconfig, ok.acceptor.frame hacceptor hvoted fun hm => hsent ▸ hm, hp, hl⟩

/-- **A turn of the proposer** that sends nothing. -/
theorem Fits.proposer (h : Fits H W i n) (hview : (configView n', acceptorView n', learnerView n') =
      (configView n, acceptorView n, learnerView n)) (hsent : n'.sent = n.sent) (hdelayed :
      n'.delayed = n.delayed)
    (hok : WorldLater (update W i n) (update W i n') → NodeOK H (update W i n') i n →
    Proposer (update W i n') n') :
    Fits H W i n' := by
  obtain ⟨hconfig, hrest⟩ := Prod.mk.inj hview
  obtain ⟨hacceptor, hlearner⟩ := Prod.mk.inj hrest
  refine h.silent (by rw [hconfig, hacceptor]) hsent hdelayed fun hw ok => ⟨hok hw ok, ?_⟩
  exact ok.learner.frame hlearner (fun hm => hsent ▸ hm) fun hm => hdelayed ▸ hm

/-- **A turn of the learner** that sends nothing. -/
theorem Fits.learner (h : Fits H W i n) (hview : (configView n', acceptorView n', proposerView n') =
      (configView n, acceptorView n, proposerView n)) (hsent : n'.sent = n.sent) (hdelayed :
      n'.delayed = n.delayed)
    (hok : WorldLater (update W i n) (update W i n') → NodeOK H (update W i n') i n →
    Learner H (update W i n') n') :
    Fits H W i n' := by
  obtain ⟨hconfig, hrest⟩ := Prod.mk.inj hview
  obtain ⟨hacceptor, hproposer⟩ := Prod.mk.inj hrest
  refine h.silent (by rw [hconfig, hacceptor]) hsent hdelayed fun hw ok => ⟨?_, hok hw ok⟩
  exact ok.proposer.frame hproposer fun hm => hsent ▸ hm

end Namecoin.Paxos.Cluster
