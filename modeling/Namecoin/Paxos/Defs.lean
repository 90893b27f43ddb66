import Namecoin.Lib.Maps
import Namecoin.Lib.Systems
import Namecoin.State.Commands

/-! # Names by consensus

The consensus of `paxos.go` and `naming.go`: in every step the nodes agree on one name with its
metahash. A node is acceptor, proposer and learner at once. A learner that has seen a quorum of accepts
sends a TLC message with the block of the step, and a node that has seen a quorum of TLC messages
commits the step and goes on to the next.

A node is the record of the fields these functions read and write. Maps that are read with a default
are functions; sets of addresses are finite sets over a type `A`. A blank source or recipient is
`none`. What a node has broadcast is kept in `sent`: a message is on the network once it is there, and
it may be delivered to any node any number of times, or never. Goroutines that are started with a delay
are in `delayed`. A message that is broadcast is also processed by the node itself, within the same
call. The log of the calls of `commitBlock`, `commits`, is there for the statements only.

Proposal numbers are `uint`, and the next number of a proposer is computed modulo `2 ^ w` (`Width`):
one `PREPARE` with a number near the end of the range makes it wrap around. Steps are natural numbers.
A node goes through them one by one, so they differ from `uint` after `2 ^ w` commits only. -/

namespace Namecoin.Paxos.Defs

open Function
open Lib.Maps Lib.ByteStrings Types.Defs State.Commands

/-! ### Messages and blocks -/

structure PaxosValue where
  filename : String
  metahash : String
deriving DecidableEq

structure BlockchainBlock where
  index : ℕ
  hash : Bytes
  value : PaxosValue
  prevHash : Bytes
deriving DecidableEq

/-- The messages of the consensus. A promise is wrapped in a private message for the proposer. -/
inductive Message (A : Type)
  | prepare (step id : ℕ) (source : Option A)
  | promise (recipient : Option A) (step id acceptedID : ℕ) (acceptedValue : Option PaxosValue)
  | propose (step id : ℕ) (value : PaxosValue)
  | accept (step id : ℕ) (value : PaxosValue)
  | tlc (step : ℕ) (block : BlockchainBlock)
deriving DecidableEq

/-- The goroutines that sleep before they broadcast. -/
inductive Job
  | accept (step id : ℕ) (value : PaxosValue)
  | tlc (step : ℕ) (block : BlockchainBlock)
deriving DecidableEq

/-- Where `Tag` is: in front of its loop, after `initializeProposerState`, or waiting
for the step on a channel. -/
inductive TagState
  | idle
  | looping (value : PaxosValue)
  | sending (step : ℕ) (value : PaxosValue)
  | waiting (step : ℕ) (value : PaxosValue) (ch : Option ℕ)
  | returned (err : Option Err)

/-- The width of proposal numbers: `uint` has `w` bits, and its sums are modulo `2 ^ w`. Numbers that
are `unbounded` do not overflow. -/
inductive Width
  | unbounded
  | bits (w : ℕ)
deriving DecidableEq

def Width.wrap : Width → ℕ → ℕ
  | .unbounded, x => x
  | .bits w, x => x % 2 ^ w

/-- SHA-256 gives 32 bytes. -/
abbrev Digest := { b : Bytes // b.length = 32 }

/-- The fields of a node that the consensus uses. -/
structure Node (A : Type) where
  self : A
  paxosID : ℕ
  totalPeers : ℕ
  width : Width
  currentStep : ℕ
  promisedID : ℕ → ℕ
  acceptedID : ℕ → ℕ
  acceptedValue : ℕ → Option PaxosValue
  proposerPhase : ℕ → ℕ
  proposerID : ℕ → ℕ
  proposerPromises : ℕ → ℕ → Finset A
  proposerAccepts : ℕ → ℕ → Finset A
  proposerHighestAcceptedID : ℕ → ℕ
  proposerValue : ℕ → PaxosValue
  acceptCount : ℕ → ℕ → Finset A
  tlcCount : ℕ → Finset A
  tlcBlock : Map ℕ BlockchainBlock
  tlcBroadcasted : ℕ → Bool
  lastBlock : Bytes
  naming : Map String String
  stepWaiters : ℕ → List ℕ
  channels : ℕ
  tag : TagState
  retries : List ℕ
  delayed : List Job
  sent : List (Message A)
  commits : List (ℕ × BlockchainBlock)

/-- A node with an empty storage. -/
def newNode {A : Type} (self : A) (paxosID totalPeers : ℕ) (width : Width) : Node A where
  self := self
  paxosID := paxosID
  totalPeers := totalPeers
  width := width
  currentStep := 0
  promisedID _ := 0
  acceptedID _ := 0
  acceptedValue _ := none
  proposerPhase _ := 0
  proposerID _ := 0
  proposerPromises _ _ := ∅
  proposerAccepts _ _ := ∅
  proposerHighestAcceptedID _ := 0
  proposerValue _ := ⟨"", ""⟩
  acceptCount _ _ := ∅
  tlcCount _ := ∅
  tlcBlock := ∅
  tlcBroadcasted _ := false
  lastBlock := []
  naming := ∅
  stepWaiters _ := []
  channels := 0
  tag := .idle
  retries := []
  delayed := []
  sent := []
  commits := []

variable {A : Type} [DecidableEq A] (H : Bytes → Digest)

/-- `getQuorum`, without a threshold of its own. -/
def getQuorum (totalPeers : ℕ) : ℕ := (if totalPeers = 0 then 1 else totalPeers) / 2 + 1

def Node.quorum (n : Node A) : ℕ := getQuorum n.totalPeers

def Node.send (n : Node A) (m : Message A) : Node A := { n with sent := n.sent ++ [m] }

/-- Add an address to a set, unless it is blank. -/
def addSource (src : Option A) (s : Finset A) : Finset A :=
  match src with
  | some a => insert a s
  | none => s

/-- Set the entry of a map of maps. -/
def update₂ {α : Type} (f : ℕ → ℕ → α) (i j : ℕ) (x : α) : ℕ → ℕ → α := update f i (update (f i) j x)

/-! ### Learners -/

/-- The block of a step on top of the given hash. -/
def blockOf (step : ℕ) (value : PaxosValue) (prevHash : Bytes) : BlockchainBlock where
  index := step
  hash := (H (utf8 (toString step) ++ utf8 value.filename ++ utf8 value.metahash ++ prevHash)).1
  value := value
  prevHash := prevHash

def buildBlock (n : Node A) (step : ℕ) (value : PaxosValue) : BlockchainBlock :=
  if blank value.filename ∨ blank value.metahash then ⟨0, [], ⟨"", ""⟩, []⟩
  else blockOf H step value (if n.lastBlock.length = 32 then n.lastBlock else List.replicate 32 0)

/-- `trackAcceptCounts`: the node, the count of the proposer, the count of the learner, and whether the
TLC message has been sent. -/
def trackAcceptCounts (n : Node A) (step id : ℕ) (src : Option A) : Node A × ℕ × ℕ × Bool :=
  let own := n.proposerPhase step = 2 ∧ n.proposerID step = id
  let accepts := addSource src (n.proposerAccepts step id)
  let count := addSource src (n.acceptCount step id)
  ({ n with
    proposerAccepts := if own then update₂ n.proposerAccepts step id accepts else n.proposerAccepts
    acceptCount := update₂ n.acceptCount step id count },
    if own then accepts.card else 0, count.card, n.tlcBroadcasted step)

def Node.setPhase (n : Node A) (step phase : ℕ) : Node A :=
  { n with proposerPhase := update n.proposerPhase step phase }

def handlePaxosAccept (n : Node A) (step id : ℕ) (value : PaxosValue) (src : Option A) : Node A :=
  if step ≠ n.currentStep then n
  else
    let (n, propCnt, globalCnt, tlcAlready) := trackAcceptCounts n step id src
    let n := if n.quorum ≤ propCnt then n.setPhase step 3 else n
    if n.quorum ≤ globalCnt ∧ tlcAlready = false then
      { n with delayed := n.delayed ++ [.tlc step (buildBlock H n step value)] }
    else n

/-- `Broadcast` of an accept. -/
def broadcastAccept (n : Node A) (step id : ℕ) (value : PaxosValue) : Node A :=
  handlePaxosAccept H (n.send (.accept step id value)) step id value (some n.self)

/-! ### Acceptors and proposers -/

/-- `handlePaxosPropose`. The accept is delayed if the proposal is the node's own. -/
def handlePaxosPropose (n : Node A) (step id : ℕ) (value : PaxosValue) (src : Option A) : Node A :=
  if step ≠ n.currentStep then n
  else if id ≠ n.promisedID step then n
  else
    let n := { n with
      acceptedID := update n.acceptedID step id
      acceptedValue := update n.acceptedValue step (some value) }
    if src = some n.self then { n with delayed := n.delayed ++ [.accept step id value] }
    else broadcastAccept H n step id value

def broadcastProposeAndAdvancePhase (n : Node A) (step id : ℕ) (value : PaxosValue) : Node A :=
  (handlePaxosPropose H (n.send (.propose step id value)) step id value (some n.self)).setPhase step 2

def shouldProcessPromise (n : Node A) (step promiseID : ℕ) : Prop :=
  n.proposerPhase step = 1 ∧ n.proposerID step = promiseID

instance (n : Node A) (step promiseID : ℕ) : Decidable (shouldProcessPromise n step promiseID) :=
  inferInstanceAs (Decidable (_ ∧ _))

/-- The critical section of `handlePaxosPromise`: count the source, and adopt the accepted value if it
is of a higher ballot than the one adopted so far. -/
def countPromise (n : Node A) (step id acceptedID : ℕ) (acceptedValue : Option PaxosValue)
    (src : Option A) : Node A :=
  let n := { n with
    proposerPromises := update₂ n.proposerPromises step id (addSource src (n.proposerPromises step id)) }
  match acceptedValue with
  | some value =>
    if n.proposerHighestAcceptedID step < acceptedID then
      { n with
        proposerHighestAcceptedID := update n.proposerHighestAcceptedID step acceptedID
        proposerValue := update n.proposerValue step value }
    else n
  | none => n

def handlePaxosPromise (n : Node A) (step id acceptedID : ℕ) (acceptedValue : Option PaxosValue)
    (src : Option A) :
    Node A :=
  if step ≠ n.currentStep then n
  else if ¬ shouldProcessPromise n step id then n
  else
    let n := countPromise n step id acceptedID acceptedValue src
    if n.quorum ≤ (n.proposerPromises step id).card then
      broadcastProposeAndAdvancePhase H n step id (n.proposerValue step)
    else n

/-- `sendPromiseMessage`. The promise is also given to the handler of the node itself, as if it
came from there; if the node is the recipient, then the private message that is broadcast gives it
to the handler once more. -/
def sendPromiseMessage (n : Node A) (dest : Option A) (step id acceptedID : ℕ)
    (acceptedValue : Option PaxosValue) :
    Node A :=
  let n := n.send (.promise dest step id acceptedID acceptedValue)
  match dest with
  | none => n
  | some d =>
    let n := handlePaxosPromise H n step id acceptedID acceptedValue (some n.self)
    if d = n.self then handlePaxosPromise H n step id acceptedID acceptedValue (some n.self) else n

def handlePaxosPrepare (n : Node A) (step id : ℕ) (source : Option A) : Node A :=
  if step ≠ n.currentStep then n
  else if id ≤ n.promisedID step then n
  else sendPromiseMessage H { n with promisedID := update n.promisedID step id } source step id
    (n.acceptedID step) (n.acceptedValue step)

def initializeProposerState (n : Node A) (step : ℕ) (value : PaxosValue) : Node A :=
  { n with
    proposerValue := update n.proposerValue step value
    proposerPhase := update n.proposerPhase step 1
    proposerID := update n.proposerID step n.paxosID
    proposerPromises := update n.proposerPromises step fun _ => ∅
    proposerAccepts := update n.proposerAccepts step fun _ => ∅
    proposerHighestAcceptedID := update n.proposerHighestAcceptedID step 0 }

def sendPaxosPrepare (n : Node A) (step : ℕ) : Node A :=
  handlePaxosPrepare H (n.send (.prepare step (n.proposerID step) (some n.self))) step (n.proposerID step)
    (some n.self)

/-! ### Proposal numbers -/

/-- A number modulo the number of peers, counted from 1. -/
def slotOf (id totalPeers : ℕ) : ℕ := if id % totalPeers = 0 then totalPeers else id % totalPeers

def nextProposalID (u : Width) (current minimum totalPeers slot : ℕ) : ℕ :=
  let target := u.wrap (current + totalPeers)
  let target := if target < minimum then minimum else target
  let rem := slotOf target totalPeers
  let target := if rem ≠ slot then
    if rem < slot then u.wrap (target + (slot - rem)) else u.wrap (target + (totalPeers - rem + slot))
      else target
  if target ≤ current then u.wrap (target + totalPeers) else target

/-- The number after the greatest one of 64 bits. -/
example : nextProposalID (.bits 64) (2 ^ 64 - 1) (2 ^ 64 - 1) 3 3 = 2 := by decide

theorem nextProposalID_unbounded (current minimum totalPeers slot : ℕ) :
    nextProposalID .unbounded current minimum totalPeers slot =
      let target := if current + totalPeers < minimum then minimum else current + totalPeers
      let rem := slotOf target totalPeers
      let target := if rem ≠ slot then
        if rem < slot then target + (slot - rem) else target + (totalPeers - rem + slot) else target
      if target ≤ current then target + totalPeers else target := rfl

/-- The number that a retry of a step goes on to. -/
def nextOf (n : Node A) (step id totalPeers slot : ℕ) : ℕ :=
  nextProposalID n.width id (max id (n.promisedID step)) totalPeers slot

def bumpProposerPhase1 (n : Node A) (step id totalPeers slot : ℕ) : Node A :=
  { n with
    proposerID := update n.proposerID step (nextOf n step id totalPeers slot)
    proposerPromises := update n.proposerPromises step fun _ => ∅ }

def bumpProposerPhase2 (n : Node A) (step id totalPeers slot : ℕ) : Node A :=
  { n with
    proposerPhase := update n.proposerPhase step 1
    proposerID := update n.proposerID step (nextOf n step id totalPeers slot)
    proposerPromises := update n.proposerPromises step fun _ => ∅
    proposerAccepts := update n.proposerAccepts step fun _ => ∅ }

/-- What `handleProposerRetryTick` decides to do, from what it reads of the node. -/
inductive Retry
  | done
  | nothing
  | bump1 (id : ℕ)
  | bump2 (id : ℕ)
deriving DecidableEq

/-- The first part of `handleProposerRetryTick`. -/
def retryOf (n : Node A) (step slot totalPeers : ℕ) : Retry :=
  let phase := n.proposerPhase step
  let id := n.proposerID step
  let currentPromised := n.promisedID step
  let leaderID := if 0 < currentPromised ∧ 0 < n.totalPeers then slotOf currentPromised totalPeers else 0
  if phase = 3 then .done
  else if phase < 3 ∧ leaderID ≠ 0 ∧ leaderID ≠ slot then .nothing
  else if phase = 1 ∧ (n.proposerPromises step id).card < n.quorum then .bump1 id
  else if phase = 2 ∧ (n.proposerAccepts step id).card < n.quorum then .bump2 id
  else .nothing

/-- `handleProposerRetryTick`: the node, and whether the retry loop is done. -/
def handleProposerRetryTick (n : Node A) (step slot totalPeers : ℕ) : Node A × Bool :=
  match retryOf n step slot totalPeers with
  | .done => (n, true)
  | .nothing => (n, false)
  | .bump1 id => (sendPaxosPrepare H (bumpProposerPhase1 n step id totalPeers slot) step, false)
  | .bump2 id => (sendPaxosPrepare H (bumpProposerPhase2 n step id totalPeers slot) step, false)

/-! ### Committing a step -/

/-- `commitBlock`, for the given step. -/
def commitBlock (n : Node A) (step : ℕ) (block : BlockchainBlock) : Node A :=
  { n with
    lastBlock := block.hash
    naming := if blank block.value.filename = false ∧ blank block.value.metahash = false then
      n.naming.insert block.value.filename block.value.metahash else n.naming
    commits := n.commits ++ [(step, block)] }

/-- `completeStepWaiters`: the channels are closed. -/
def completeStepWaiters (n : Node A) (step : ℕ) : Node A :=
  { n with stepWaiters := update n.stepWaiters step [] }

def cleanupProposerState (n : Node A) (step : ℕ) : Node A :=
  { n with
    proposerPhase := update n.proposerPhase step 3
    proposerPromises := update n.proposerPromises step fun _ => ∅
    proposerAccepts := update n.proposerAccepts step fun _ => ∅
    proposerID := update n.proposerID step 0
    proposerHighestAcceptedID := update n.proposerHighestAcceptedID step 0
    proposerValue := update n.proposerValue step ⟨"", ""⟩ }

def cleanupTLCState (n : Node A) (step : ℕ) : Node A :=
  { n with
    tlcCount := update n.tlcCount step ∅
    tlcBlock := n.tlcBlock.erase step
    tlcBroadcasted := update n.tlcBroadcasted step false
    acceptCount := update n.acceptCount step fun _ => ∅ }

/-- The end of the loop body of `commitStepAndAdvance`. -/
def advanceStep (n : Node A) : Node A := { n with currentStep := n.currentStep + 1 }

/-- The loop body of `commitStepAndAdvance`. -/
def commitStep (n : Node A) (step : ℕ) (block : BlockchainBlock) : Node A :=
  advanceStep (cleanupTLCState (cleanupProposerState (completeStepWaiters (commitBlock n step block) step)
    step) step)

omit [DecidableEq A] in
theorem commitStep_eq (n : Node A) (s : ℕ) (B : BlockchainBlock) : commitStep n s B = { n with
    currentStep := n.currentStep + 1
    proposerPhase := update n.proposerPhase s 3
    proposerID := update n.proposerID s 0
    proposerPromises := update n.proposerPromises s fun _ => ∅
    proposerAccepts := update n.proposerAccepts s fun _ => ∅
    proposerHighestAcceptedID := update n.proposerHighestAcceptedID s 0
    proposerValue := update n.proposerValue s ⟨"", ""⟩
    acceptCount := update n.acceptCount s fun _ => ∅
    tlcCount := update n.tlcCount s ∅
    tlcBlock := n.tlcBlock.erase s
    tlcBroadcasted := update n.tlcBroadcasted s false
    lastBlock := B.hash
    naming := (commitBlock n s B).naming
    stepWaiters := update n.stepWaiters s []
    commits := n.commits ++ [(s, B)] } := by
  simp only [commitStep, advanceStep, cleanupTLCState, cleanupProposerState,
    completeStepWaiters, commitBlock]

/-- The block of the current step, if a quorum of TLC messages for it has been received already. -/
def nextBlock (n : Node A) : Option BlockchainBlock :=
  if n.quorum ≤ (n.tlcCount n.currentStep).card then n.tlcBlock.lookup n.currentStep else none

def commitStepAndAdvance (n : Node A) (step : ℕ) (block : BlockchainBlock) : Node A :=
  if step ≠ n.currentStep then n
  else
    let n' := commitStep n step block
    match _h : nextBlock n' with
    | some blk => commitStepAndAdvance n' n'.currentStep blk
    | none => n'
termination_by (n.tlcBlock.erase step).keys.card
decreasing_by
  unfold nextBlock at _h
  split_ifs at _h
  have hmem : n'.currentStep ∈ n'.tlcBlock.keys := Finmap.mem_keys.mpr (Finmap.mem_of_lookup_eq_some _h)
  rw [Finmap.keys_erase]
  exact Finset.card_erase_lt_of_mem hmem

omit [DecidableEq A] in
theorem commitStepAndAdvance_of_ne {n : Node A} {step : ℕ} {block : BlockchainBlock}
    (h : step ≠ n.currentStep) :
    commitStepAndAdvance n step block = n := by
  rw [commitStepAndAdvance, if_pos h]

omit [DecidableEq A] in
theorem commitStepAndAdvance_some {n : Node A} {block blk : BlockchainBlock}
    (h : nextBlock (commitStep n n.currentStep block) = some blk) :
    commitStepAndAdvance n n.currentStep block =
      commitStepAndAdvance (commitStep n n.currentStep block)
        (commitStep n n.currentStep block).currentStep blk := by
  rw [commitStepAndAdvance, if_neg (not_not.mpr rfl)]
  dsimp only
  split
  · next blk' h' =>
    cases h.symm.trans h'
    rfl
  · next h' => cases h.symm.trans h'

omit [DecidableEq A] in
theorem commitStepAndAdvance_none {n : Node A} {block : BlockchainBlock}
    (h : nextBlock (commitStep n n.currentStep block) = none) :
    commitStepAndAdvance n n.currentStep block = commitStep n n.currentStep block := by
  rw [commitStepAndAdvance, if_neg (not_not.mpr rfl)]
  dsimp only
  split
  · next blk' h' => cases h.symm.trans h'
  · rfl

omit [DecidableEq A] in
/-- **Induction over the steps that are committed**: what every committed step keeps is kept by the
loop. `P` says what is known of the block of the current step. -/
theorem commit_invariant {I : Node A → Prop} {P : Node A → BlockchainBlock → Prop}
    (hstep : ∀ n block, I n → P n block → I (commitStep n n.currentStep block))
    (hnext : ∀ n block, I n → nextBlock n = some block → P n block) :
    ∀ (n : Node A) (step : ℕ) (block : BlockchainBlock), I n → (step = n.currentStep → P n block) →
      I (commitStepAndAdvance n step block) := by
  intro n step block
  induction n, step, block using commitStepAndAdvance.induct with
  | case1 n step block hne =>
    intro hI _
    rw [commitStepAndAdvance_of_ne hne]
    exact hI
  | case2 n step block hcur n' blk h ih =>
    intro hI hP
    obtain rfl := not_not.mp hcur
    rw [commitStepAndAdvance_some h]
    have hI' := hstep n block hI (hP rfl)
    exact ih hI' fun _ => hnext _ _ hI' h
  | case3 n step block hcur n' h =>
    intro hI hP
    obtain rfl := not_not.mp hcur
    rw [commitStepAndAdvance_none h]
    exact hstep n block hI (hP rfl)

/-! ### TLC messages -/

/-- `broadcastTLCOnce` without local processing. -/
def broadcastTLC (n : Node A) (step : ℕ) (block : BlockchainBlock) : Node A :=
  if n.tlcBroadcasted step then n
  else { n with tlcBroadcasted := update n.tlcBroadcasted step true }.send (.tlc step block)

/-- The critical section of `handleTLC`. -/
def countTLC (n : Node A) (step : ℕ) (block : BlockchainBlock) (src : Option A) : Node A :=
  { n with
    tlcCount := update n.tlcCount step (insert (src.getD n.self) (n.tlcCount step))
    tlcBlock := n.tlcBlock.insert step block }

def handleTLC (n : Node A) (step : ℕ) (block : BlockchainBlock) (src : Option A) : Node A :=
  if step < n.currentStep then n
  else
    let n := countTLC n step block src
    if n.quorum ≤ (n.tlcCount step).card ∧ step = n.currentStep then
      commitStepAndAdvance (broadcastTLC n step block) step block
    else n

/-- `broadcastTLCOnce` with local processing: the handler finds that the message has been broadcast. -/
def broadcastTLCOnce (n : Node A) (step : ℕ) (block : BlockchainBlock) : Node A :=
  if n.tlcBroadcasted step then n
  else (handleTLC { n with tlcBroadcasted := update n.tlcBroadcasted step true } step block
    (some n.self)).send (.tlc step block)

/-- What a delayed goroutine does when it wakes up. -/
def runJob (n : Node A) : Job → Node A
  | .accept step id value => broadcastAccept H n step id value
  | .tlc step block => broadcastTLCOnce n step block

/-! ### `Tag` -/

/-- `registerStepWaiter`: the channel, unless the step is over. -/
def registerStepWaiter (n : Node A) (step : ℕ) : Node A × Option ℕ :=
  if step < n.currentStep then (n, none)
  else ({ n with
    stepWaiters := update n.stepWaiters step (n.stepWaiters step ++ [n.channels])
    channels := n.channels + 1 }, some n.channels)

/-- The text a name is bound to in the naming store, `""` if there is none. -/
def Node.resolved (n : Node A) (name : String) : String := (n.naming.lookup name).getD ""

/-- `Tag` up to its loop. -/
def beginTag (n : Node A) (name mh : String) : Node A :=
  let name := trimSpace name
  let mh := trimSpace mh
  if name = "" ∨ mh = "" then { n with tag := .returned (some (.msg "invalid name or metahash")) }
  else if n.totalPeers ≤ 1 then { n with naming := n.naming.insert name mh, tag := .returned none }
  else if n.resolved name ≠ "" then { n with tag := .returned (some (.msg "name already taken")) }
  else { n with tag := .looping ⟨name, mh⟩ }

/-- The check of the naming store: the result of `Tag`, if there is one. -/
def checkName (n : Node A) (value : PaxosValue) : Option (Option Err) :=
  if n.resolved value.filename = "" then none
  else if n.resolved value.filename = value.metahash then some none
  else some (some (.msg "name already taken"))

/-- The loop of `Tag` up to the proposal. -/
def proposeTag (n : Node A) (value : PaxosValue) : Node A :=
  match checkName n value with
  | some err => { n with tag := .returned err }
  | none => { initializeProposerState n n.currentStep value with tag := .sending n.currentStep value }

/-- The loop of `Tag` after the delay: the first round is sent, the retry loop is
started, and `Tag` waits. -/
def sendTag (n : Node A) (step : ℕ) (value : PaxosValue) : Node A :=
  let n := sendPaxosPrepare H n step
  let (n, ch) := registerStepWaiter { n with retries := n.retries ++ [step] } step
  { n with tag := .waiting step value ch }

/-- The end of the loop of `Tag`, when the channel has been closed. -/
def wakeTag (n : Node A) (value : PaxosValue) : Node A :=
  match checkName n value with
  | some err => { n with tag := .returned err }
  | none => { n with tag := .looping value }

/-- The slot of a node. -/
def Node.slot (n : Node A) : ℕ := slotOf n.paxosID n.totalPeers

/-! ### Steps of a node -/

/-- The handler of a message. -/
def receive (n : Node A) (src : Option A) : Message A → Node A
  | .prepare step id source => handlePaxosPrepare H n step id source
  | .promise recipient step id acceptedID acceptedValue =>
    if recipient = some n.self then handlePaxosPromise H n step id acceptedID acceptedValue src else n
  | .propose step id value => handlePaxosPropose H n step id value src
  | .accept step id value => handlePaxosAccept H n step id value src
  | .tlc step block => handleTLC n step block src

/-- What a node does in one step: handle a message, wake up a delayed goroutine, go on with `Tag`, or
a tick of a retry loop. -/
inductive Action (A : Type)
  | receive (m : Message A) (src : Option A)
  | job (k : ℕ)
  | tag (name mh : String)
  | propose
  | send
  | wake
  | tick (k : ℕ)

/-- A step of a node. A node runs one `Tag` at a time. -/
def nodeStep (n : Node A) : Action A → Option (Node A)
  | .receive m src => some (receive H n src m)
  | .job k => n.delayed[k]?.map fun j => runJob H { n with delayed := n.delayed.eraseIdx k } j
  | .tag name mh => match n.tag with
    | .idle => some (beginTag n name mh)
    | .returned _ => some (beginTag n name mh)
    | _ => none
  | .propose => match n.tag with
    | .looping value => some (proposeTag n value)
    | _ => none
  | .send => match n.tag with
    | .sending step value => some (sendTag H n step value)
    | _ => none
  | .wake => match n.tag with
    | .waiting step value ch => if ∀ c ∈ ch, c ∉ n.stepWaiters step then some (wakeTag n value) else none
    | _ => none
  | .tick k => n.retries[k]?.map fun step =>
    let (n', done) := handleProposerRetryTick H n step n.slot n.totalPeers
    if done then { n' with retries := n'.retries.eraseIdx k } else n'

/-! ### Samples -/

/-- A hash function for runs of a few peers. -/
def digest : Bytes → Digest := fun _ => ⟨List.replicate 32 1, rfl⟩

/-- Numbers name the peers of a network of three. -/
instance three_ne_zero : NeZero 3 := ⟨by decide⟩

end Namecoin.Paxos.Defs
