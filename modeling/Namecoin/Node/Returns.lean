import Namecoin.Node.Buffers
import Namecoin.Node.Miner

/-! # Transactions that come back

The handler of a block removes its transactions from the buffer, and stops the miner after that. An
iteration that has taken them before gives them back when it is stopped, and then they are in the
buffer again, although they are applied.

* `Clean`: when no handler and no iteration is at work, nothing in the buffer is applied;
* `Sorted`: what is kept in every turn: what is applied and still in the buffer is about to be removed,
  and what will be given back is not applied;
* `clean_reach`: **confirmed transactions do not return** as long as nothing applied is added, nothing
  is taken that a handler is about to remove, no turn of the service is contested, and a block that
  becomes the head has no transactions that will be given back;
* `returned`: the transaction of a block is back in the buffer. -/

namespace Namecoin.Node.Returns

open Lib.Maps Lib.Threads Types.Defs Types.TxCodec Types.BlockCodec Types.SampleEnv State.Defs
open State.Strict State.Wallet State.Effects Chain.Defs Chain.Apply Chain.Pow Chain.Build
open Chain.Registration Service.Scenes Service.Defs Service.Turns Service.Branches Service.Steady
open Service.Transactions Node.Mempool Node.Buffers Node.Template Node.Handler Node.Startup
open Node.Miner

variable {E : Env} {cfg : MinerConfig} {order : MapOrder} {n : Peer} {w : Work} {e : Effect Peer Work}
  {p p' : Pool Peer Work} {ws : Multiset Work} {id : String}

/-! ### The property -/

/-- The work of a handler or of an iteration. -/
def busy : Work → Bool
  | .message _ => true
  | .add _ _ => true
  | .receive _ => true
  | .remove _ _ => true
  | .restart => true
  | .notify _ _ => true
  | .look _ => true
  | .snapshot _ => true
  | .target _ _ _ => true
  | .drain _ _ _ => true
  | .attempt _ _ _ _ _ => true
  | .requeue _ => true
  | .mined _ _ _ => true
  | .append _ _ => true
  | _ => false

/-- No handler is running and no iteration is in progress. -/
def Idle (p : Pool Peer Work) : Prop := ∀ w ∈ p.tasks, busy w = false

/-- **No transaction of the buffer is applied** when the node is idle. -/
def Clean (p : Pool Peer Work) : Prop :=
  Idle p → ∀ id ∈ p.shared.ledger.txBuffer.txs, ¬ Applied p.shared.ledger.service id

/-! ### The condition on a turn -/

/-- The iteration may put the transaction back into the buffer. -/
def GivesBack : Work → String → Prop
  | .attempt _ _ _ drained _, id => id ∈ drained.snapshot
  | .requeue drained, id => id ∈ drained.snapshot
  | _, _ => False

/-- The handler is about to remove the transaction. -/
def Removes (E : Env) : Work → String → Prop
  | .remove left _, id => HasID E left id ∧ ∀ tx ∈ left, ∃ id, buildTransactionID E tx = .ok id
  | _, _ => False

/-- The block is processed alone and uncontested. If the canonical chain accepts it, none of its
transactions will be given back. -/
def Apart (E : Env) (n : Peer) (ws : Multiset Work) (blk : Block) : Prop :=
  Lone E n.ledger.service blk ∧ Uncontested E n.ledger.service blk ∧
    ((∃ S r, (getLongestChain n.ledger.service).applyBlock E S blk = .ok r) →
      ∀ id, HasID E blk.transactions id → ∀ w ∈ ws, ¬ GivesBack w id)

/-- What is added is not applied, and nothing is taken that is about to be removed. Blocks are apart
from the work `ws` of all goroutines, and a mined block that the canonical chain accepts has no
transactions in the buffer. -/
def Tame (E : Env) (n : Peer) (ws : Multiset Work) : Work → Prop
  | .add _ txID => ¬ Applied n.ledger.service txID
  | .drain _ _ _ => ∀ id ∈ n.ledger.txBuffer.txs, ∀ w ∈ ws, ¬ Removes E w id
  | .receive blk => Apart E n ws blk
  | .append _ block => Apart E n ws block ∧
    ((∃ S r, (getLongestChain n.ledger.service).applyBlock E S block = .ok r) →
      ∀ id, HasID E block.transactions id → id ∉ n.ledger.txBuffer.txs)
  | _ => True

def TameTurn (E : Env) (p : Pool Peer Work) : Event → Prop
  | .call _ => True
  | .turn t _ _ => ∀ w, p.top t = some w → Tame E p.shared p.tasks w

/-! ### One turn -/

/-- What is applied and in the buffer is about to be removed, and what will be
given back is not applied. -/
structure Sorted (E : Env) (n : Peer) (ws : Multiset Work) : Prop where
  covered : ∀ id ∈ n.ledger.txBuffer.txs, Applied n.ledger.service id → ∃ w ∈ ws, Removes E w id
  fresh : ∀ w ∈ ws, ∀ id, GivesBack w id → ¬ Applied n.ledger.service id

/-- What a turn does to what is sorted; `next` is what the turn leaves to do. -/
structure Sorts (E : Env) (n : Peer) (ws : Multiset Work) (w : Work) (n' : Peer) (next : List Work) :
    Prop where
  buffered : ∀ id ∈ n'.ledger.txBuffer.txs, Applied n'.ledger.service id →
    (id ∈ n.ledger.txBuffer.txs ∧ Applied n.ledger.service id) ∨ ∃ w' ∈ next, Removes E w' id
  removes : ∀ id ∈ n'.ledger.txBuffer.txs, Removes E w id → ∃ w' ∈ next, Removes E w' id
  applied : ∀ id, Applied n'.ledger.service id → Applied n.ledger.service id ∨
    ∀ w' ∈ ws, ¬ GivesBack w' id
  next : ∀ w' ∈ next, ∀ id, GivesBack w' id → ¬ Applied n'.ledger.service id

theorem Sorts.sorted {n' : Peer} {next : List Work} {others : Multiset Work}
    (h : Sorts E n (w ::ₘ others) w n' next) (hs : Sorted E n (w ::ₘ others)) :
    Sorted E n' (next + others) := by
  constructor
  · intro id hid happ
    rcases h.buffered id hid happ with ⟨hid₀, happ₀⟩ | ⟨w', hw', hr⟩
    · obtain ⟨w', hw', hr⟩ := hs.covered id hid₀ happ₀
      rcases Multiset.mem_cons.mp hw' with rfl | hother
      · obtain ⟨w'', hw'', hr'⟩ := h.removes id hid hr
        exact ⟨w'', Multiset.mem_add.mpr (.inl (Multiset.mem_coe.mpr hw'')), hr'⟩
      · exact ⟨w', Multiset.mem_add.mpr (.inr hother), hr⟩
    · exact ⟨w', Multiset.mem_add.mpr (.inl (Multiset.mem_coe.mpr hw')), hr⟩
  · intro w' hw' id hg happ
    rcases Multiset.mem_add.mp hw' with hnext | hother
    · exact h.next w' (Multiset.mem_coe.mp hnext) id hg happ
    · have hmem : w' ∈ w ::ₘ others := Multiset.mem_cons_of_mem hother
      rcases h.applied id happ with happ₀ | hnone
      · exact hs.fresh w' hmem id hg happ₀
      · exact hnone w' hmem hg

theorem Light.not_givesBack (h : Light E w) : ¬ GivesBack w id := by
  cases w <;> first | exact h.elim | exact fun hg => hg

theorem sorts_same {next : List Work} {n' : Peer} (hservice : n'.ledger.service = n.ledger.service)
    (hbuffer : ∀ id ∈ n'.ledger.txBuffer.txs, id ∈ n.ledger.txBuffer.txs) (hw : ∀ id, ¬ Removes E w id)
    (hnext : ∀ w' ∈ next, Light E w') : Sorts E n ws w n' next where
  buffered id hid happ := .inl ⟨hbuffer id hid, by rwa [hservice] at happ⟩
  removes id _ hr := absurd hr (hw id)
  applied id happ := .inl (by rwa [hservice] at happ)
  next w' hw' id hg := absurd hg (Light.not_givesBack (hnext w' hw'))

theorem sorts_block {blk : Block} {next : List Work} (hr : AllReplayed E n.ledger.service)
    (ha : Apart E n ws blk) (hw : ∀ id, ¬ Removes E w id) (hnext : ∀ w' ∈ next, ∀ id, ¬ GivesBack w' id)
    (hblock : (appendBlockToLongestChain E order n.ledger.service blk).2 = (true, none) →
      (∃ S r, (getLongestChain n.ledger.service).applyBlock E S blk = .ok r) →
      (∀ tx ∈ blk.transactions, ∃ id, buildTransactionID E tx = .ok id) →
      ∀ id ∈ n.ledger.txBuffer.txs, HasID E blk.transactions id → ∃ w' ∈ next, Removes E w' id) :
    Sorts E n ws w (n.setService (appendBlockToLongestChain E order n.ledger.service blk).1) next := by
  obtain ⟨hlone, hunc, hapart⟩ := ha
  rcases lone_call hlone hunc hr with hsame | ⟨hres, hvalid, hnamed, hnew⟩
  · exact ⟨fun id hid happ => .inl ⟨hid, (hsame id).mp happ⟩, fun id _ h => absurd h (hw id),
      fun id happ => .inl ((hsame id).mp happ), fun w' hw' id hg => absurd hg (hnext w' hw' id)⟩
  · refine ⟨fun id hid happ => ?_, fun id _ h => absurd h (hw id), fun id happ => ?_,
      fun w' hw' id hg => absurd hg (hnext w' hw' id)⟩
    · rcases (hnew id).mp happ with h | h
      · exact .inl ⟨hid, h⟩
      · exact .inr (hblock hres hvalid hnamed id hid h)
    · exact ((hnew id).mp happ).imp_right fun h => hapart hvalid id h

/-- **A tame turn** keeps things sorted. -/
theorem sorts_of_does (h : Does E order n w e) (hr : AllReplayed E n.ledger.service)
    (ht : Tidy E n.ledger.txBuffer) (hp : Proper E w) (hs : Sorted E n ws) (hmem : w ∈ ws)
    (hc : Tame E n ws w) :
    Sorts E n ws w e.shared (e.next ++ e.spawned.flatten) := by
  cases h with
  | aside hw hservice hbuffer _ hnext =>
    refine sorts_same hservice (fun id hid => by rwa [hbuffer] at hid) (fun id hrem => ?_) hnext
    cases w <;> first | exact hrem | cases hw
  | add tx txID =>
    refine ⟨fun id hid happ => ?_, fun _ _ hrem => hrem.elim, fun id happ => .inl happ, by simp⟩
    rcases mem_add.mp hid with rfl | hid
    · exact absurd happ hc
    · exact .inl ⟨hid, happ⟩
  | receive blk hres hnext =>
    refine sorts_block hr hc (fun _ h => h) (fun w' hw' id => Light.not_givesBack
      (hnext w' (by simpa using hw'))) ?_
    exact fun h => absurd h hres
  | receiveHead blk hres =>
    refine sorts_block hr hc (fun _ h => h) ?_ fun _ _ hnamed id _ hid =>
      ⟨_, List.mem_cons_self, hid, hnamed⟩
    intro w' hw' id hg
    rw [List.mem_singleton.mp hw'] at hg
    exact hg
  | removed txs =>
    refine sorts_same rfl (fun _ hid => hid) (fun id hrem => ?_) (by simp [Light])
    obtain ⟨⟨tx, htx, -⟩, -⟩ := hrem
    cases htx
  | @remove tx txID left txs hid =>
    refine ⟨fun id hmem happ => .inl ⟨(mem_remove.mp hmem).2, happ⟩, fun id hmem hrem => ?_,
      fun id happ => .inl happ, ?_⟩
    · obtain ⟨⟨tx', htx', hid'⟩, hnamed⟩ := hrem
      refine ⟨_, List.mem_cons_self, ⟨tx', ?_, hid'⟩, fun t ht => hnamed t (List.mem_cons_of_mem tx ht)⟩
      refine (List.mem_cons.mp htx').resolve_left fun heq => (mem_remove.mp hmem).1 ?_
      rw [heq, hid] at hid'
      exact (Except.ok.inj hid').symm
    · intro w' hw' id hg
      rw [List.mem_singleton.mp hw'] at hg
      exact hg.elim
  | @nameless tx err left txs hid =>
    refine sorts_same rfl (fun _ hmem => hmem) (fun id hrem => ?_) (by simp)
    obtain ⟨id', hid'⟩ := hrem.2 tx List.mem_cons_self
    rw [hid] at hid'
    cases hid'
  | drain stop base hdr target =>
    refine ⟨fun id hmem => absurd hmem Finmap.notMem_empty, fun _ _ hrem => hrem.elim,
      fun id happ => .inl happ, ?_⟩
    intro w' hw' id hg happ
    rw [List.mem_singleton.mp hw'] at hg
    have hid := (ht.drain.2 id).mp hg
    obtain ⟨w'', hw'', hrem⟩ := hs.covered id hid happ
    exact hc id hid w'' hw'' hrem
  | search stop hdr target drained nonce =>
    refine ⟨fun id hid happ => .inl ⟨hid, happ⟩, fun _ _ hrem => hrem.elim, fun id happ => .inl happ, ?_⟩
    intro w' hw' id hg
    rw [List.mem_singleton.mp hw'] at hg
    exact hs.fresh _ hmem id hg
  | @giveUp w₁ stop hdr target drained nonce hlight =>
    refine ⟨fun id hid happ => .inl ⟨hid, happ⟩, fun _ _ hrem => hrem.elim, fun id happ => .inl happ, ?_⟩
    intro w' hw' id hg
    simp only [List.flatten_nil, List.append_nil, List.mem_cons, List.not_mem_nil, or_false] at hw'
    rcases hw' with rfl | rfl
    · exact hs.fresh _ hmem id hg
    · exact absurd hg (Light.not_givesBack hlight)
  | find stop hdr target drained nonce hblock =>
    refine ⟨fun id hid happ => .inl ⟨hid, happ⟩, fun _ _ hrem => hrem.elim, fun id happ => .inl happ, ?_⟩
    intro w' hw' id hg
    rw [List.mem_singleton.mp hw'] at hg
    exact hg.elim
  | requeue drained =>
    obtain ⟨-, hback⟩ := ht.requeue (fun id t hl => (Taken.named hp id t hl).2) drained.order
    refine ⟨fun id hid happ => ?_, fun _ _ hrem => hrem.elim, fun id happ => .inl happ, by simp⟩
    rcases (hback id).mp hid with hid | ⟨-, hheld⟩
    · exact .inl ⟨hid, happ⟩
    · exact absurd happ (hs.fresh _ hmem id hheld)
  | mined stop block hashed =>
    refine ⟨fun id hid happ => .inl ⟨hid, happ⟩, fun _ _ hrem => hrem.elim, fun id happ => .inl happ, ?_⟩
    intro w' hw' id hg
    dsimp only at hw'
    split_ifs at hw'
    · rw [List.mem_singleton.mp hw'] at hg
      exact hg.elim
    · rw [List.mem_singleton.mp hw'] at hg
      exact hg.elim
  | append stop block hnext =>
    refine sorts_block hr hc.1 (fun _ h => h)
      (fun w' hw' id => Light.not_givesBack (hnext w' (by simpa using hw'))) ?_
    exact fun _ hvalid _ id hid hhas => absurd hid (hc.2 hvalid id hhas)

/-! ### Runs -/

theorem sorted_step {a : Event} (ho : Orderly E p) (h : Sorted E p.shared p.tasks) (hc : TameTurn E p a)
    (hs : step E cfg p a = some p') : Sorted E p'.shared p'.tasks := by
  cases a with
  | call w =>
    rw [step] at hs
    split_ifs at hs with hcall
    cases hs
    rw [spawn_tasks]
    constructor
    · intro id hid happ
      obtain ⟨w', hw', hrem⟩ := h.covered id hid happ
      exact ⟨w', Multiset.mem_add.mpr (.inr hw'), hrem⟩
    · intro w' hw' id hg
      rcases Multiset.mem_add.mp hw' with hw' | hw'
      · rw [Multiset.mem_coe, List.mem_singleton] at hw'
        subst hw'
        cases w' <;> first | exact hg.elim | cases hcall
      · exact h.fresh w' hw' id hg
  | turn t now order =>
    obtain ⟨w, e, others, htop, he, hshared, hold, hnew⟩ := run_tasks hs
    have hmem : w ∈ p.tasks := by
      rw [hold]
      exact Multiset.mem_cons_self w others
    have hsorts := sorts_of_does (exec_does he) ho.replayed ho.tidy (ho.proper w hmem) h hmem (hc w htop)
    rw [hold] at hsorts h
    rw [hshared, hnew]
    exact hsorts.sorted h

theorem Sorted.clean (h : Sorted E p.shared p.tasks) : Clean p := by
  intro hidle id hid happ
  obtain ⟨w, hw, hrem⟩ := h.covered id hid happ
  have hquiet := hidle w hw
  cases w <;> first | exact hrem | cases hquiet

/-- **Confirmed transactions do not return**: in every state that tame turns reach, no transaction of
an idle node is both in the buffer and applied on the canonical chain. -/
theorem clean_reach (h : (mining E cfg).Reach (TameTurn E) p) : Clean p := by
  have hall := h.invariant (I := fun p => Orderly E p ∧ Sorted E p.shared p.tasks)
    (fun p hs => ⟨orderly_start hs, ?_⟩) fun p a p' hc hs hI =>
    ⟨orderly_step hI.1 hs, sorted_step hI.1 hI.2 hc hs⟩
  · exact hall.2.clean
  · obtain ⟨S, store, blocks, rfl⟩ := hs
    exact ⟨fun id hid => absurd hid Finmap.notMem_empty, fun w hw => by simp [Pool.tasks] at hw⟩

theorem tame_of_quiet {target : ℤ} {a : Event} (h : Quiet (emptyPeer E target).ledger.service p a) :
    TameTurn E p a := by
  cases a with
  | call w => exact True.intro
  | turn t now order =>
    intro w htop
    have hw := h.2 w (mem_tasks_of_top htop)
    cases w with
    | add tx txID =>
      rw [Tame, h.1]
      exact not_applied_emptyPeer E target txID
    | drain stop base target =>
      intro id _ w' hw' hrem
      have hquiet := h.2 w' hw'
      cases w' <;> first | exact hrem | cases hquiet
    | receive blk => cases hw
    | append stop block => cases hw
    | _ => exact True.intro

/-! ### A transaction that comes back -/

section sample

variable {now : Int64} {tx : Tx} {txID : String} {blk block : Block} {target : ℤ}

theorem exec_receive (h : (appendBlockToLongestChain E order n.ledger.service blk).2 = (true, none)) :
    exec E cfg now order n (.receive blk) =
      goOn (n.setService (appendBlockToLongestChain E order n.ledger.service blk).1)
        [.remove blk.transactions blk.transactions] := by
  rw [exec, h]

theorem exec_remove {left txs : List Tx} (h : buildTransactionID E tx = .ok txID) :
    exec E cfg now order n (.remove (tx :: left) txs) =
      goOn (n.setBuffer (n.ledger.txBuffer.remove txID)) [.remove left txs] := by
  rw [exec, h]

theorem exec_attempt_stopped {stop : ℕ} {hdr : BlockHeader} {drained : Drained} {nonce : UInt64}
    (h : stop ∈ n.closed) :
    exec E cfg now order n (.attempt stop hdr target drained nonce) =
      goOn n [.requeue drained, .finish] := by
  rw [exec, mineNonce, if_pos (.inr (.inr h))]

/-- The buffer when the transaction has been removed and given back. -/
def returnedBuffer (tx : Tx) (txID : String) : TxBuffer :=
  (newTxBuffer.remove txID).requeue (takenOne tx txID).order (takenOne tx txID).snapshot

theorem mem_returnedBuffer (hid : buildTransactionID E tx = .ok txID) :
    txID ∈ (returnedBuffer tx txID).txs := by
  have hnamed : ∀ id t, ((∅ : Map String Tx).insert txID tx).lookup id = some t →
      buildTransactionID E t = .ok id := by
    intro id t hl
    by_cases heq : id = txID
    · subst heq
      rw [Finmap.lookup_insert] at hl
      rwa [← Option.some.inj hl]
    · rw [Finmap.lookup_insert_of_ne _ heq] at hl
      cases hl
  unfold returnedBuffer
  rw [takenOne_eq]
  exact ((Tidy.requeue hnamed [txID] ((tidy_newTxBuffer E).remove txID)).2 txID).mpr
    (.inr ⟨List.mem_singleton_self _, Finmap.mem_insert.mpr (.inl rfl)⟩)

/-- The node after the first block, whose handler has started the miner again. -/
def returnedPeer (E : Env) (target : ℤ) (tx : Tx) (txID : String) (s : ChainService) : Peer :=
  { emptyPeer E target with
    ledger := notifyTxs E none ⟨s, returnedBuffer tx txID, ∅, []⟩ [tx]
    minerStopCh := some 1, minerWG := 1, channels := 2, closed := [0], admitted := [(txID, tx)] }

/-- **The handler stops the miner after it has removed the transaction**, and the miner gives it back. -/
theorem reach_returned (hadm : admission E newState tx = .ok (tx, txID))
    (hblk : assembleBlock E ⟨0, none, none, 0, 0, "", some (bigBytes target)⟩ [tx] "" = .ok blk)
    (hid : buildTransactionID E tx = .ok txID) (htxs : block.transactions = [tx])
    (hres : (appendBlockToLongestChain E numbered (emptyPeer E target).ledger.service block).2 =
    (true, none)) :
    (mining E (sampleConfig target)).Reach (fun _ _ => True) ⟨returnedPeer E target tx txID
      (appendBlockToLongestChain E numbered (emptyPeer E target).ledger.service block).1,
      [[], [], [], [], [.mine 1]]⟩ := by
  let drained := takenOne tx txID
  let n := takenPeer E target tx txID
  let n₁ := n.setService (appendBlockToLongestChain E numbered
    (emptyPeer E target).ledger.service block).1
  let n₂ := n₁.setBuffer (newTxBuffer.remove txID)
  let n₃ : Peer := { n₂ with minerStopping := true, closed := [0], minerStopCh := none }
  let n₄ := n₃.setBuffer (returnedBuffer tx txID)
  let n₅ : Peer := { n₄ with minerWG := 0 }
  let n₆ : Peer := { n₅ with minerStopping := false }
  let n₇ : Peer := { n₆ with minerStopCh := some 1, channels := 2, minerWG := 1 }
  let attempt : Work := .attempt 0 blk.header target drained 0
  let rest : List Work := [.restart, .notify none [tx]]
  have h₁ := reach_taken (C := fun _ _ => True) (fun _ _ _ => True.intro) hadm hblk
  have h₂ := reach_call (.receive block) h₁ True.intro rfl
  have h₃ := reach_turn 3 ⟨n₁, [[], [], [attempt], [.remove block.transactions block.transactions]]⟩
    h₂ True.intro rfl (exec_receive hres) rfl
  rw [htxs] at h₃
  have h₄ := reach_turn 3 ⟨n₂, [[], [], [attempt], [.remove [] [tx]]]⟩ h₃ True.intro rfl
    (exec_remove hid) rfl
  have h₅ := reach_turn 3 ⟨n₂, [[], [], [attempt], .stop :: rest]⟩ h₄ True.intro rfl rfl rfl
  have h₆ := reach_turn 3 ⟨n₃, [[], [], [attempt], .wait :: .stopped :: rest]⟩ h₅ True.intro rfl rfl rfl
  have h₇ := reach_turn 2 ⟨n₃, [[], [], [.requeue drained, .finish], .wait :: .stopped :: rest]⟩
    h₆ True.intro rfl (exec_attempt_stopped (List.mem_singleton_self 0)) rfl
  have h₈ := reach_turn 2 ⟨n₄, [[], [], [.finish], .wait :: .stopped :: rest]⟩ h₇ True.intro rfl rfl rfl
  have h₉ := reach_turn 2 ⟨n₅, [[], [], [], .wait :: .stopped :: rest]⟩ h₈ True.intro rfl rfl rfl
  have h₁₀ := reach_turn 3 ⟨n₅, [[], [], [], .stopped :: rest]⟩ h₉ True.intro rfl rfl rfl
  have h₁₁ := reach_turn 3 ⟨n₆, [[], [], [], rest]⟩ h₁₀ True.intro rfl rfl rfl
  have h₁₂ := reach_turn 3 ⟨n₆, [[], [], [], [.start, .notify none [tx]]]⟩ h₁₁ True.intro rfl rfl rfl
  have h₁₃ := reach_turn 3 ⟨n₇, [[], [], [], [.notify none [tx]], [.mine 1]]⟩ h₁₂ True.intro rfl rfl rfl
  exact reach_turn 3 _ h₁₃ True.intro rfl rfl rfl

theorem not_clean_returned {s : ChainService} (hid : buildTransactionID E tx = .ok txID)
    (happ : Applied s txID) :
    ¬ Clean ⟨returnedPeer E target tx txID s, [[], [], [], [], [.mine 1]]⟩ := by
  intro h
  obtain ⟨hservice, hbuffer⟩ := service_notifyTxs (E := E) none [tx] ⟨s, returnedBuffer tx txID, ∅, []⟩
  refine h (by simp [Idle, Pool.tasks, busy]) txID ?_ ?_
  · unfold returnedPeer
    dsimp only
    rw [hbuffer]
    exact mem_returnedBuffer hid
  · unfold returnedPeer
    dsimp only
    rwa [hservice]

end sample

/-- A transaction, and a block with it. -/
def heldTx : Tx := walletTx (plainSigner 7) .reward 0 [] []

def heldBlock : Block := blockAt plainEnv 0 none [heldTx] 0

/-- The call that brings the block to a node without blocks. -/
def heldCall : ChainService × Bool × Option Err :=
  appendBlockToLongestChain plainEnv numbered
    (emptyPeer plainEnv (workOf plainEnv heldBlock)).ledger.service heldBlock

theorem admission_heldTx : admission plainEnv newState heldTx = .ok (heldTx, heldTx.txID) :=
  admit_walletTx rfl rfl rfl

theorem id_heldTx : buildTransactionID plainEnv heldTx = .ok heldTx.txID :=
  buildTransactionID_walletTx _ _ _ _ _

theorem payload_heldTx : ∀ tx ∈ [heldTx], tx.payload ≠ .invalid := by
  simp [heldTx, walletTx, unsignedTx]

theorem first_heldBlock : ∃ data st, First plainEnv (workOf plainEnv heldBlock) heldBlock data st := by
  have hstart : atHeight 0 newState = newState := atHeight_of_no_expires rfl 0
  have hstep : FreshStep plainEnv heldTx.txID heldTx newState _ :=
    freshStep_reward rfl (.inr rfl) (Nat.zero_le 1) Finmap.notMem_empty
  obtain ⟨data, hfirst⟩ := first_blockAt payload_heldTx
    (by rw [hstart]; exact .fresh id_heldTx (Finset.notMem_empty _) hstep (.nil _)) le_rfl
  exact ⟨data, _, hfirst⟩

theorem received_heldBlock : heldCall.2 = (true, none) ∧ Applied heldCall.1 heldTx.txID := by
  obtain ⟨data, st, hfirst⟩ := first_heldBlock
  have ha := hfirst.accepted [.mem ∅] 0
  have hs : Single [.mem ∅] (emptyChain (workOf plainEnv heldBlock) 0)
      (emptyPeer plainEnv (workOf plainEnv heldBlock)).ledger.service :=
    (single_new (E := plainEnv) (staticConfig (workOf plainEnv heldBlock))).1
  have hone : Single _ _ heldCall.1 := (hs.call rfl rfl ha (fun _ => ⟨rfl, rfl⟩) numbered _).1
  have happlied : Applied heldCall.1 heldTx.txID := by
    have hnone : HeadOK (emptyChain (workOf plainEnv heldBlock) 0).headHash := rfl
    unfold Applied
    rw [getLongestChain_eq (by rw [hone.index, hone.chains]; rfl)]
    exact ((applyBlock_txMap hnone ha).2 _).mpr (.inr ⟨heldTx, List.mem_singleton_self _, id_heldTx⟩)
  refine ⟨?_, happlied⟩
  have hlone : Lone plainEnv (emptyPeer plainEnv (workOf plainEnv heldBlock)).ledger.service heldBlock :=
    ⟨rfl, rfl⟩
  rcases lone_call hlone (fun _ _ => ⟨_, rfl⟩)
    (orderly_start (start_emptyPeer _ _)).replayed with hsame | ⟨hres, -⟩
  · exact absurd ((hsame heldTx.txID).mp happlied) (not_applied_emptyPeer _ _ _)
  · exact hres

/-- The transaction of a block is back in the buffer. -/
theorem returned : ¬ ∀ (E : Env) (cfg : MinerConfig) (p : Pool Peer Work), E.CollisionFree →
    (mining E cfg).Reach (fun _ _ => True) p → Clean p := by
  intro h
  obtain ⟨hres, happlied⟩ := received_heldBlock
  unfold heldCall at hres happlied
  obtain ⟨blk, hblk, -⟩ := assembleBlock_ok (E := plainEnv)
    ⟨0, none, none, 0, 0, "", some (bigBytes (workOf plainEnv heldBlock))⟩ "" payload_heldTx
  have hclean := h _ _ _ plainEnv_collisionFree (reach_returned admission_heldTx hblk id_heldTx rfl hres)
  exact not_clean_returned id_heldTx happlied hclean

/-! ### A transaction that does not come back -/

section sample

variable {tx tx' : Tx} {txID txID' : String} {block : Block} {target : ℤ} {t : ℕ} {now : Int64}

theorem tameTurn_of {rest : List Work} (ht : p.threads[t]? = some (w :: rest))
    (h : Tame E p.shared p.tasks w) :
    TameTurn E p (.turn t now order) := by
  intro w' htop
  obtain ⟨rest', ht'⟩ := top_eq_some.mp htop
  cases ht.symm.trans ht'
  exact h

/-- A buffer with two transactions, when the first one has been removed. -/
def leftBuffer (tx tx' : Tx) (txID txID' : String) : TxBuffer :=
  ((newTxBuffer.add tx txID).add tx' txID').remove txID

theorem inStep_leftBuffer (tx tx' : Tx) (txID txID' : String) : InStep (leftBuffer tx tx' txID txID') :=
  ((inStep_new.add tx txID).add tx' txID').remove txID

theorem mem_leftBuffer (hne : txID' ≠ txID) : txID' ∈ (leftBuffer tx tx' txID txID').txs :=
  mem_remove.mpr ⟨hne, mem_add.mpr (.inl rfl)⟩

theorem pending_leftBuffer (hne : txID' ≠ txID) :
    (leftBuffer tx tx' txID txID').drain.1.pending = [tx'] := by
  have hleft : leftBuffer tx tx' txID txID' =
      ⟨[txID'], (((∅ : Map String Tx).insert txID tx).insert txID' tx').erase txID⟩ := by
    unfold leftBuffer TxBuffer.remove
    rw [newTxBuffer_add_add hne,
      if_pos (Finmap.mem_insert.mpr (.inr (Finmap.mem_insert.mpr (.inl rfl))))]
    simp
  rw [hleft]
  simp [TxBuffer.drain, TxBuffer.list, Finmap.lookup_erase_ne hne]

/-- The node after its miner has been started for the first time. -/
def startedPeer (L : NodeState) (admitted : List (String × Tx)) : Peer :=
  ⟨L, false, false, some 0, 1, 1, [], admitted⟩

/-- **A block confirms one of two transactions**, and its handler starts the miner. -/
theorem reach_confirmed (hadm : admission E newState tx = .ok (tx, txID))
    (hadm' : admission E newState tx' = .ok (tx', txID')) (hid : buildTransactionID E tx = .ok txID)
    (htxs : block.transactions = [tx]) (hlone : Lone E (emptyPeer E target).ledger.service block)
    (hunc : Uncontested E (emptyPeer E target).ledger.service block)
    (hres : (appendBlockToLongestChain E numbered (emptyPeer E target).ledger.service block).2 =
    (true, none)) :
    (mining E (sampleConfig target)).Reach (TameTurn E) ⟨startedPeer (notifyTxs E none
      ⟨(appendBlockToLongestChain E numbered (emptyPeer E target).ledger.service block).1,
        leftBuffer tx tx' txID txID', ∅, []⟩ [tx]) [(txID, tx), (txID', tx')],
        [[], [], [], [.mine 0]]⟩ := by
  let n₀ := admittedOne E target tx txID
  let n₁ : Peer := { n₀.setBuffer (n₀.ledger.txBuffer.add tx' txID') with
    admitted := [(txID, tx), (txID', tx')] }
  let n₂ := n₁.setService (appendBlockToLongestChain E numbered
    (emptyPeer E target).ledger.service block).1
  let n₃ := n₂.setBuffer (leftBuffer tx tx' txID txID')
  let n₄ : Peer := { n₃ with minerStopCh := some 0, channels := 1, minerWG := 1 }
  let rest : List Work := [.restart, .notify none [tx]]
  have h₀ : (mining E (sampleConfig target)).Reach (TameTurn E) ⟨n₀, [[]]⟩ :=
    reach_admitted (fun _ _ => tame_of_quiet) hadm
  have h₁ := reach_call (.message tx') h₀ True.intro rfl
  have h₂ := reach_turn 1 ⟨n₀, [[], [.add tx' txID']]⟩ h₁ (tameTurn_of rfl True.intro) rfl
    (exec_message hadm') rfl
  have h₃ := reach_turn 1 ⟨n₁, [[], []]⟩ h₂ (tameTurn_of rfl (not_applied_emptyPeer E target txID'))
    rfl rfl rfl
  have h₄ := reach_call (.receive block) h₃ True.intro rfl
  -- no iteration is at work when the block comes
  have hapart : Apart E n₁ ({.receive block} : Multiset Work) block := ⟨hlone, hunc, fun _ id _ w hw => by
    rw [Multiset.mem_singleton.mp hw]
    exact fun hg => hg⟩
  have h₅ := reach_turn 2 ⟨n₂, [[], [], [.remove block.transactions block.transactions]]⟩ h₄
    (tameTurn_of rfl hapart) rfl (exec_receive hres) rfl
  rw [htxs] at h₅
  have h₆ := reach_turn 2 ⟨n₃, [[], [], [.remove [] [tx]]]⟩ h₅ (tameTurn_of rfl True.intro) rfl
    (exec_remove hid) rfl
  have h₇ := reach_turn 2 ⟨n₃, [[], [], .stop :: rest]⟩ h₆ (tameTurn_of rfl True.intro) rfl rfl rfl
  have h₈ := reach_turn 2 ⟨n₃, [[], [], rest]⟩ h₇ (tameTurn_of rfl True.intro) rfl rfl rfl
  have h₉ := reach_turn 2 ⟨n₃, [[], [], [.start, .notify none [tx]]]⟩ h₈
    (tameTurn_of rfl True.intro) rfl rfl rfl
  have h₁₀ := reach_turn 2 ⟨n₄, [[], [], [.notify none [tx]], [.mine 0]]⟩ h₉
    (tameTurn_of rfl True.intro) rfl rfl rfl
  exact reach_turn 2 _ h₁₀ (tameTurn_of rfl True.intro) rfl rfl rfl

/-- **An iteration is stopped** and gives back what it has taken. -/
theorem reach_stopped {L : NodeState} {admitted : List (String × Tx)} (hstep : InStep L.txBuffer)
    (hpay : ∀ tx ∈ L.txBuffer.drain.1.pending, tx.payload ≠ .invalid)
    (h : (mining E cfg).Reach (TameTurn E) ⟨startedPeer L admitted, [[], [], [], [.mine 0]]⟩) :
    (mining E cfg).Reach (TameTurn E) ⟨⟨L, false, false, none, 0, 1, [0], admitted⟩,
    [[], [], [], [], []]⟩ := by
  let n := startedPeer L admitted
  let t := (nextPowTarget (getLongestChain L.service)).getD (effectiveTarget cfg.pow.target)
  let hash := cloneBytes (getLongestChain L.service).headHash
  let height := (getLongestChain L.service).headHeight
  let base : BlockHeader := ⟨if hash = none then 0 else height + 1, hash, none, 0, 0,
    cfg.pow.pubKey, none⟩
  let n₁ := n.setBuffer newTxBuffer
  let n₂ : Peer := { n₁ with minerStopping := true, closed := [0], minerStopCh := none }
  let n₃ := n₂.setBuffer L.txBuffer
  obtain ⟨blk, hblk, -⟩ := assembleBlock_ok (E := E) { base with difficulty := some (bigBytes t) }
    cfg.pow.pubKey hpay
  let drained := L.txBuffer.drain.1
  have hback : newTxBuffer.requeue drained.order drained.snapshot = L.txBuffer := hstep.rejoined_nil
  have hrequeue : exec E cfg 0 numbered n₂ (.requeue drained) = goOn n₃ [] :=
    congrArg (fun b => goOn (n₂.setBuffer b) []) hback
  have h₁ := reach_turn 3 ⟨n, [[], [], [], [.look 0]]⟩ h (tameTurn_of rfl True.intro) rfl rfl rfl
  have h₂ := reach_turn 3 ⟨n, [[], [], [], [.snapshot 0]]⟩ h₁ (tameTurn_of rfl True.intro) rfl rfl rfl
  have h₃ := reach_turn 3 ⟨n, [[], [], [], [.target 0 hash height]]⟩ h₂
    (tameTurn_of rfl True.intro) rfl rfl rfl
  have h₄ := reach_turn 3 ⟨n, [[], [], [], [.drain 0 base t]]⟩ h₃ (tameTurn_of rfl True.intro) rfl rfl rfl
  have htame : Tame E n ({.drain 0 base t} : Multiset Work) (.drain 0 base t) := fun id _ w hw => by
    rw [Multiset.mem_singleton.mp hw]
    exact fun hr => hr
  have h₅ := reach_turn 3 ⟨n₁, [[], [], [], [.attempt 0 blk.header t drained 0]]⟩ h₄
    (tameTurn_of rfl htame) rfl (exec_drain hblk) rfl
  have h₆ := reach_call .stop h₅ True.intro rfl
  have h₇ := reach_turn 4 ⟨n₂, [[], [], [], [.attempt 0 blk.header t drained 0], [.wait, .stopped]]⟩ h₆
    (tameTurn_of rfl True.intro) rfl rfl rfl
  have h₈ := reach_turn 3 ⟨n₂, [[], [], [], [.requeue drained, .finish], [.wait, .stopped]]⟩ h₇
    (tameTurn_of rfl True.intro) rfl (exec_attempt_stopped (List.mem_singleton_self 0)) rfl
  have h₉ := reach_turn 3 ⟨n₃, [[], [], [], [.finish], [.wait, .stopped]]⟩ h₈
    (tameTurn_of rfl True.intro) rfl hrequeue rfl
  have h₁₀ := reach_turn 3 ⟨{ n₃ with minerWG := 0 }, [[], [], [], [], [.wait, .stopped]]⟩ h₉
    (tameTurn_of rfl True.intro) rfl rfl rfl
  have h₁₁ := reach_turn 4 ⟨{ n₃ with minerWG := 0 }, [[], [], [], [], [.stopped]]⟩ h₁₀
    (tameTurn_of rfl True.intro) rfl rfl rfl
  exact reach_turn 4 _ h₁₁ (tameTurn_of rfl True.intro) rfl rfl rfl

theorem reach_kept (hadm : admission E newState tx = .ok (tx, txID))
    (hadm' : admission E newState tx' = .ok (tx', txID')) (hid : buildTransactionID E tx = .ok txID)
    (hne : txID' ≠ txID) (hpay : tx'.payload ≠ .invalid) (htxs : block.transactions = [tx])
    (hlone : Lone E (emptyPeer E target).ledger.service block)
    (hunc : Uncontested E (emptyPeer E target).ledger.service block)
    (hres : (appendBlockToLongestChain E numbered (emptyPeer E target).ledger.service block).2 =
    (true, none)) :
    ∃ p, (mining E (sampleConfig target)).Reach (TameTurn E) p ∧ Idle p ∧
    txID' ∈ p.shared.ledger.txBuffer.txs ∧
      p.shared.ledger.service =
        (appendBlockToLongestChain E numbered (emptyPeer E target).ledger.service block).1 := by
  let L₀ : NodeState := ⟨(appendBlockToLongestChain E numbered
    (emptyPeer E target).ledger.service block).1, leftBuffer tx tx' txID txID', ∅, []⟩
  obtain ⟨hservice, hbuffer⟩ := service_notifyTxs (E := E) none [tx] L₀
  have hbuffer : (notifyTxs E none L₀ [tx]).txBuffer = leftBuffer tx tx' txID txID' := hbuffer
  have h := reach_stopped (by rw [hbuffer]; exact inStep_leftBuffer ..)
    (by rw [hbuffer, pending_leftBuffer hne]; exact List.forall_mem_singleton.mpr hpay)
    (reach_confirmed hadm hadm' hid htxs hlone hunc hres)
  refine ⟨_, h, by simp [Idle, Pool.tasks], ?_, hservice⟩
  show txID' ∈ (notifyTxs E none L₀ [tx]).txBuffer.txs
  rw [hbuffer]
  exact mem_leftBuffer hne

end sample

def otherTx : Tx := walletTx (plainSigner 8) .reward 0 [] []

theorem admission_otherTx : admission plainEnv newState otherTx = .ok (otherTx, otherTx.txID) :=
  admit_walletTx rfl rfl rfl

/-- A block confirms one of two transactions, and an iteration gives the other one back: the node is
idle, and what is in its buffer is not applied. -/
theorem clean_confirmed : ∃ (E : Env) (cfg : MinerConfig) (p : Pool Peer Work), E.CollisionFree ∧
    (mining E cfg).Reach (TameTurn E) p ∧ Idle p ∧ Applied p.shared.ledger.service heldTx.txID ∧
      otherTx.txID ∈ p.shared.ledger.txBuffer.txs ∧ Clean p := by
  obtain ⟨hres, happlied⟩ := received_heldBlock
  have hne : otherTx.txID ≠ heldTx.txID := by decide +kernel
  obtain ⟨p, hp, hidle, hmem, hservice⟩ := reach_kept admission_heldTx admission_otherTx id_heldTx hne
    (by simp [otherTx, walletTx, unsignedTx]) rfl ⟨rfl, rfl⟩ (fun _ _ => ⟨_, rfl⟩) hres
  exact ⟨plainEnv, _, p, plainEnv_collisionFree, hp, hidle, hservice ▸ happlied, hmem, clean_reach hp⟩

end Namecoin.Node.Returns
