import Namecoin.Chain.Rejections
import Namecoin.Chain.Restart
import Namecoin.Node.Mempool
import Namecoin.Service.Refusals

/-! # Received blocks

`handleNamecoinBlockMessage` of `message_handlers.go` and `notifyTxConfirmation` of `impl.go`. A
channel that a caller waits on is a number, and what has been sent on channels is a list. The miner
runs beside the handler and is not part of this state; the handler returns whether it has stopped it.

* `untouched_iff`: **a rejected block has no side effects** exactly if it is refused and no caller
  waits for one of its transactions. -/

namespace Namecoin.Node.Handler

open Lib.Maps Types.Defs Types.TxCodec Types.BlockCodec Types.SampleEnv State.Strict Chain.Stores
open Chain.Defs Chain.Apply Chain.Build Chain.Replay Chain.Rejections Chain.Restart Service.Defs
open Service.Turns Service.Scenes Service.Branches Service.Refusals Node.Mempool

/-- The parts of a node that the handlers change. -/
structure NodeState where
  service : ChainService
  txBuffer : TxBuffer
  pendingTxConfirm : Map String ℕ
  sent : List (ℕ × Option Err)

def notifyTxConfirmation (n : NodeState) (txID : String) (err : Option Err) : NodeState :=
  match n.pendingTxConfirm.lookup txID with
  | some ch => { n with pendingTxConfirm := n.pendingTxConfirm.erase txID, sent := n.sent ++ [(ch, err)] }
  | none => n

variable (E : Env)

/-- `notifyTxConfirmation` for every transaction that has an ID. -/
def notifyTxs (err : Option Err) : NodeState → List Tx → NodeState
  | n, [] => n
  | n, tx :: txs => match buildTransactionID E tx with
    | .ok txID => notifyTxs err (notifyTxConfirmation n txID err) txs
    | .error _ => notifyTxs err n txs

/-- The loop that removes the transactions of a block from the buffer, up to the
first one without an ID. -/
def removeTxs : TxBuffer → List Tx → TxBuffer × Option Err
  | b, [] => (b, none)
  | b, tx :: txs => match buildTransactionID E tx with
    | .ok txID => removeTxs (b.remove txID) txs
    | .error e => (b, some e)

/-- `handleNamecoinBlockMessage`: the node, whether the miner has been stopped, and the error. -/
def handleNamecoinBlockMessage (order : MapOrder) (n : NodeState) (blk : Block) :
    NodeState × Bool × Option Err :=
  let (service, changed, err) := appendBlockToLongestChain E order n.service blk
  let n := { n with service := service }
  match err with
  | some e => (notifyTxs E (some e) n blk.transactions, false, some e)
  | none =>
    if changed then
      match removeTxs E n.txBuffer blk.transactions with
      | (buffer, some e) => ({ n with txBuffer := buffer }, false, some e)
      | (buffer, none) => (notifyTxs E none { n with txBuffer := buffer } blk.transactions, true, none)
    else (n, false, none)

variable {E} {n : NodeState} {blk : Block}

/-! ### Callers that wait -/

/-- A caller waits for one of the transactions. -/
def Awaited (E : Env) (pending : Map String ℕ) (txs : List Tx) : Prop :=
  ∃ tx ∈ txs, ∃ txID, buildTransactionID E tx = .ok txID ∧ txID ∈ pending

theorem service_notifyTxConfirmation (n : NodeState) (txID : String) (err : Option Err) :
    (notifyTxConfirmation n txID err).service = n.service ∧
      (notifyTxConfirmation n txID err).txBuffer = n.txBuffer := by
  unfold notifyTxConfirmation
  cases n.pendingTxConfirm.lookup txID <;> exact ⟨rfl, rfl⟩

theorem service_notifyTxs (err : Option Err) : ∀ (txs : List Tx) (n : NodeState),
    (notifyTxs E err n txs).service = n.service ∧ (notifyTxs E err n txs).txBuffer = n.txBuffer
  | [], _ => ⟨rfl, rfl⟩
  | tx :: txs, n => by
    unfold notifyTxs
    cases buildTransactionID E tx with
    | error e => exact service_notifyTxs err txs n
    | ok txID =>
      obtain ⟨h₁, h₂⟩ := service_notifyTxs err txs (notifyTxConfirmation n txID err)
      obtain ⟨h₁', h₂'⟩ := service_notifyTxConfirmation n txID err
      exact ⟨h₁.trans h₁', h₂.trans h₂'⟩

theorem pending_notifyTxConfirmation (n : NodeState) (txID : String) (err : Option Err) :
    (notifyTxConfirmation n txID err).pendingTxConfirm = n.pendingTxConfirm.erase txID := by
  unfold notifyTxConfirmation
  cases h : n.pendingTxConfirm.lookup txID with
  | some ch => rfl
  | none => exact (erase_of_notMem (Finmap.lookup_eq_none.mp h)).symm

theorem mem_pending_notifyTxs {err : Option Err} {key : String} : ∀ {txs : List Tx} {n : NodeState},
    key ∈ (notifyTxs E err n txs).pendingTxConfirm ↔
      key ∈ n.pendingTxConfirm ∧ ∀ tx ∈ txs, buildTransactionID E tx ≠ .ok key
  | [], n => by simp [notifyTxs]
  | tx :: txs, n => by
    unfold notifyTxs
    cases hid : buildTransactionID E tx with
    | error e =>
      dsimp only
      rw [mem_pending_notifyTxs, List.forall_mem_cons, hid]
      simp
    | ok txID =>
      dsimp only
      rw [mem_pending_notifyTxs, pending_notifyTxConfirmation, Finmap.mem_erase,
        List.forall_mem_cons, hid]
      simp only [ne_eq, Except.ok.injEq]
      constructor
      · rintro ⟨⟨hne, hmem⟩, hall⟩
        exact ⟨hmem, fun h => hne h.symm, hall⟩
      · rintro ⟨hmem, hne, hall⟩
        exact ⟨⟨fun h => hne h.symm, hmem⟩, hall⟩

theorem notifyTxs_of_not_awaited {err : Option Err} : ∀ {txs : List Tx} {n : NodeState},
    ¬ Awaited E n.pendingTxConfirm txs → notifyTxs E err n txs = n
  | [], _, _ => rfl
  | tx :: txs, n, h => by
    have hrest : ¬ Awaited E n.pendingTxConfirm txs := fun ⟨tx', hmem, hid⟩ =>
      h ⟨tx', List.mem_cons_of_mem _ hmem, hid⟩
    unfold notifyTxs
    cases hid : buildTransactionID E tx with
    | error e => exact notifyTxs_of_not_awaited hrest
    | ok txID =>
      have hnot : txID ∉ n.pendingTxConfirm := fun hmem => h ⟨tx, List.mem_cons_self, txID, hid, hmem⟩
      have hsame : notifyTxConfirmation n txID err = n := by
        unfold notifyTxConfirmation
        rw [Finmap.lookup_eq_none.mpr hnot]
      dsimp only
      rw [hsame]
      exact notifyTxs_of_not_awaited hrest

theorem pending_notifyTxs_iff {n : NodeState} {err : Option Err} {txs : List Tx} :
    (notifyTxs E err n txs).pendingTxConfirm = n.pendingTxConfirm ↔
    ¬ Awaited E n.pendingTxConfirm txs := by
  constructor
  · rintro heq ⟨tx, htx, txID, hid, hmem⟩
    rw [← heq, mem_pending_notifyTxs] at hmem
    exact hmem.2 tx htx hid
  · intro h
    rw [notifyTxs_of_not_awaited h]

/-! ### Rejected blocks -/

/-- The service of a running node. -/
def Reached (E : Env) (s : ChainService) : Prop :=
  ∃ S c₀ blks calls, Replayed E blks (headOf c₀) ∧ Calls E (newChainService E S c₀) calls s

theorem Reached.replayed {s : ChainService} (h : Reached E s) : AllReplayed E s := by
  obtain ⟨S, c₀, blks, calls, hb, hcalls⟩ := h
  refine hcalls.invariant (fun _ _ _ _ _ => replayed_turn) fun c hc => ?_
  rw [newChainService, chains_indexChain, List.mem_singleton] at hc
  rw [hc]
  exact ⟨blks, hb⟩

/-- The service, the buffer and the map of callers are as before. -/
structure Untouched (n n' : NodeState) : Prop where
  service : n'.service = n.service
  txBuffer : n'.txBuffer = n.txBuffer
  pendingTxConfirm : n'.pendingTxConfirm = n.pendingTxConfirm

theorem handleNamecoinBlockMessage_rejected {order : MapOrder} {e : Err}
    (h : (appendBlockToLongestChain E order n.service blk).2.2 = some e) :
    handleNamecoinBlockMessage E order n blk = (notifyTxs E (some e)
      { n with service := (appendBlockToLongestChain E order n.service blk).1 } blk.transactions,
      false, some e) := by
  unfold handleNamecoinBlockMessage
  dsimp only
  rw [h]

/-- **A rejected block has no side effects** exactly if it is refused and nobody
waits for its transactions. -/
theorem untouched_iff {order : MapOrder} {e : Err} (hn : Reached E n.service)
    (h : (appendBlockToLongestChain E order n.service blk).2 = (false, some e)) :
    Untouched n (handleNamecoinBlockMessage E order n blk).1 ↔
      Refused E (order.visit 0) n.service blk ∧ ¬ Awaited E n.pendingTxConfirm blk.transactions := by
  have herr : (appendBlockToLongestChain E order n.service blk).2.2 = some e := congrArg Prod.snd h
  rw [handleNamecoinBlockMessage_rejected herr]
  let n' : NodeState := { n with service := (appendBlockToLongestChain E order n.service blk).1 }
  obtain ⟨hservice, hbuffer⟩ := service_notifyTxs (E := E) (some e) blk.transactions n'
  have hpending : (notifyTxs E (some e) n' blk.transactions).pendingTxConfirm = n.pendingTxConfirm ↔
      ¬ Awaited E n.pendingTxConfirm blk.transactions := pending_notifyTxs_iff (n := n')
  have hcall : (appendBlockToLongestChain E order n.service blk).1 = n.service ↔
      Refused E (order.visit 0) n.service blk :=
    failed_call_iff hn.replayed fun hnone => Option.some_ne_none e (herr.symm.trans hnone)
  constructor
  · rintro ⟨h₁, -, h₃⟩
    exact ⟨hcall.mp (hservice.symm.trans h₁), hpending.mp h₃⟩
  · rintro ⟨hr, hw⟩
    exact ⟨hservice.trans (hcall.mpr hr), hbuffer, hpending.mpr hw⟩

/-! ### Two rejected blocks -/

/-- A block without a transaction root on top of a head. -/
def rootlessOn (c : NamecoinChain) : Block :=
  ⟨⟨if c.headHash = none then 0 else c.headHeight + 1, c.headHash, none, 1, 0, "", none⟩, [], none⟩

theorem applyBlock_rootlessOn {c : NamecoinChain} (hh : HeadOK c.headHash) (S : Heap) :
    c.applyBlock E S (rootlessOn c) = .error (.msg "txRoot mismatch") := by
  refine applyBlock_bad_root hh (.inl rfl) ?_ (computeTxRoot_rootOf (by simp [rootlessOn])) ?_
  · refine ensureNextBlockFollows_ok_iff.mpr ?_
    unfold rootlessOn
    split_ifs with hnone
    · exact ⟨rfl, by rw [hnone]; rfl⟩
    · exact ⟨rfl, rfl⟩
  · exact fun he => rootOf_ne_nil E [] (by simp) he.symm

theorem call_rootlessOn {order : MapOrder} {s s₁ : ChainService} {c : NamecoinChain} {i : ℕ} {index : ℤ}
    (ho : Origin E (order.visit 0) s index (rootlessOn c) s₁ c i) (hh : HeadOK c.headHash) :
    (appendBlockToChain E order index s (rootlessOn c)).1 = s₁ ∧
      (appendBlockToChain E order index s (rootlessOn c)).2 = (false, some (.msg "txRoot mismatch")) := by
  have hturn := processSingleBlock_invalid (not_blockKnown_of_none rfl) ho
    (applyBlock_rootlessOn hh _) rfl
  have hsame : ¬ canonicalChanged (cloneBytes (getLongestChain s).headHash)
      (getLongestChain s).headHeight s₁ := by
    unfold canonicalChanged bytesEqual
    rw [ho.getLongestChain, elems_cloneBytes]
    simp
  rw [appendBlockToChain_single hturn, decide_eq_false hsame]
  exact ⟨rfl, rfl⟩

theorem one_block_node : ∃ (n : NodeState) (c : NamecoinChain), Reached plainEnv n.service ∧
    n.service.chains = [c] ∧ n.service.longestChainIndex = 0 ∧ HeadOK c.headHash ∧ c.headHash ≠ none ∧
    c.headHeight = 0 := by
  obtain ⟨target, m, c, -, -, hrun⟩ := quiet_live plainEnv
  obtain ⟨m', heq, hm⟩ := hrun.holds
  cases heq
  obtain ⟨hhash, hheight, -, -⟩ := hm.stamp _ rfl
  obtain ⟨blks, hb⟩ := ReachedChain.replayed hrun.reached
  refine ⟨⟨newChainService plainEnv [.mem m] c, newTxBuffer, ∅, []⟩, c, ⟨_, c, blks, [], hb, .nil⟩,
    chains_indexChain _ _ _, ?_, hrun.reached.headOK, ?_, hheight⟩
  · exact longestChainIndex_indexChain _ _ _
  · rw [hhash]
    exact Option.some_ne_none _

/-- A block on top of the only chain of a node, without a transaction root. -/
theorem untouched_rootless : ∃ (E : Env) (order : MapOrder) (n : NodeState) (blk : Block) (e : Err),
    Reached E n.service ∧ (appendBlockToLongestChain E order n.service blk).2 = (false, some e) ∧
      Untouched n (handleNamecoinBlockMessage E order n blk).1 := by
  obtain ⟨n, c, hn, hchains, -, hok, hsome, hzero⟩ := one_block_node
  have h0 : (rootlessOn c).header.height ≠ 0 := by
    show (if c.headHash = none then 0 else c.headHeight + 1) ≠ 0
    rw [if_neg hsome, hzero]
    decide
  have hfind : findHeadByHash n.service (rootlessOn c).header.prevHash = some (c, 0) := by
    unfold findHeadByHash firstChain
    rw [hchains]
    simp [bytesEqual, rootlessOn]
  have hcall := (call_rootlessOn (.head h0 hsome hfind : Origin plainEnv (numbered.visit 0) n.service
    n.service.longestChainIndex (rootlessOn c) n.service c 0) hok).2
  refine ⟨plainEnv, numbered, n, rootlessOn c, _, hn, hcall, (untouched_iff hn hcall).mpr ⟨?_, ?_⟩⟩
  · have hfor : chainFor n.service (rootlessOn c) = some (c, 0) := (if_neg h0).trans hfind
    refine ⟨not_blockKnown_of_none rfl, fun d i hd r hr => ?_, fun hz => absurd hz h0, fun _ hd => ?_⟩
    · rw [hfor] at hd
      cases hd
      rw [applyBlock_rootlessOn hok] at hr
      cases hr
    · rw [hfor] at hd
      cases hd
  · rintro ⟨tx, htx, -⟩
    cases htx

/-- **A second first block without a transaction root** is rejected, and leaves a chain without blocks. -/
theorem stray_genesis : ∃ (E : Env) (order : MapOrder) (n : NodeState) (blk : Block) (e : Err),
    Reached E n.service ∧ (appendBlockToLongestChain E order n.service blk).2 = (false, some e) ∧
      (handleNamecoinBlockMessage E order n blk).1.service.chains.length =
        n.service.chains.length + 1 := by
  obtain ⟨n, c, hn, hchains, hlong, -, hsome, -⟩ := one_block_node
  let f := (newEmptyChainFrom n.service.stores c).2
  have ho : Origin plainEnv (numbered.visit 0) n.service n.service.longestChainIndex (rootlessOn f)
      (withEmpty n.service c) f n.service.chains.length := by
    refine .fresh rfl ?_ (by rw [hlong]; exact le_rfl) (by rw [hlong, hchains]; rfl)
    refine firstChain_none.mpr fun d hd he => hsome ?_
    rw [hchains, List.mem_singleton] at hd
    exact hd ▸ he.1
  obtain ⟨hafter, hcall⟩ := call_rootlessOn ho (show HeadOK none from rfl)
  have hservice : (appendBlockToLongestChain plainEnv numbered n.service (rootlessOn f)).1 =
      withEmpty n.service c :=
    hafter
  refine ⟨plainEnv, numbered, n, rootlessOn f, _, hn, hcall, ?_⟩
  rw [handleNamecoinBlockMessage_rejected (congrArg Prod.snd hcall),
    (service_notifyTxs _ _ _).1, hservice]
  show (n.service.chains ++ _).length = _
  simp

end Namecoin.Node.Handler
