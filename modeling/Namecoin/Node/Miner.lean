import Mathlib.Data.Nat.Digits.Defs
import Namecoin.Lib.Systems
import Namecoin.Lib.Threads
import Namecoin.Node.Startup
import Namecoin.Node.Template
import Namecoin.Service.Transactions

/-! # The miner beside the handlers

`StartMiner`, `StopMiner`, `DisableMiner`, `EnableMiner` and `MinerDoWork` of `impl.go`, `MineAndApply`
of `namecoin_consensus.go` and `MineNonce` of `namecoin_pow.go`, with the two handlers that use the
buffer of transactions. Goroutines take turns. In a turn a goroutine does what it does under one lock,
or looks at one channel; it is given the time and the order in which maps are visited. A stop channel
is a number, and `admitted` keeps what has been given to `Add`. A block that is returned by
`MineAndApply` comes with the bytes that `MineNonce` has hashed last; these are for the statements
only. A mined block is sent to the neighbours only, which changes nothing here.

* `exec`: one turn;
* `Does`: what a turn does to the ledger and the buffer, said once (`exec_does`);
* `Orderly`: what the buffer and the goroutines hold has its own ID, in every state
  reached (`orderly_reach`). -/

namespace Namecoin.Node.Miner

open Lib.Maps Lib.Ops Lib.ByteStrings Lib.Systems Lib.Threads Types.Defs Types.TxCodec
open Types.BlockCodec State.Defs Chain.Pow Chain.Stores Chain.Defs Chain.Build Service.Defs
open Service.Turns Service.Branches Service.Scenes Service.Transactions Node.Mempool Node.Template
open Node.Handler Node.Startup

/-! ### The node and its goroutines -/

/-- What the miner reads of the configuration. -/
structure MinerConfig where
  pow : PoWConfig
  maxNonce : UInt64

/-- The parts of a node that goroutines share. -/
structure Peer where
  ledger : NodeState
  minerDisabled : Bool
  minerStopping : Bool
  minerStopCh : Option ℕ
  minerWG : ℕ
  channels : ℕ
  closed : List ℕ
  admitted : List (String × Tx)

/-- What a goroutine does next. -/
inductive Work
  | message (msg : Tx)
  | add (tx : Tx) (txID : String)
  | receive (blk : Block)
  | remove (left txs : List Tx)
  | notify (err : Option Err) (txs : List Tx)
  | start
  | stop
  | wait
  | stopped
  | restart
  | disable
  | close (stop : ℕ)
  | enable
  | mine (stop : ℕ)
  | look (stop : ℕ)
  | snapshot (stop : ℕ)
  | target (stop : ℕ) (headHash : Slice UInt8) (headHeight : UInt64)
  | drain (stop : ℕ) (base : BlockHeader) (target : ℤ)
  | attempt (stop : ℕ) (hdr : BlockHeader) (target : ℤ) (drained : Drained) (nonce : UInt64)
  | requeue (drained : Drained)
  | mined (stop : ℕ) (block : Block) (hashed : Bytes)
  | append (stop : ℕ) (block : Block)
  | again (stop : ℕ)
  | finish

/-- The rest of a goroutine after a turn. -/
def goOn (n : Peer) (next : List Work) : Option (Effect Peer Work) := some ⟨n, next, []⟩

def Peer.setBuffer (n : Peer) (b : TxBuffer) : Peer :=
  { n with ledger := { n.ledger with txBuffer := b } }

def Peer.setService (n : Peer) (s : ChainService) : Peer :=
  { n with ledger := { n.ledger with service := s } }

/-- `(*big.Int).Bytes`. -/
def bigBytes (x : ℤ) : Bytes := ((Nat.digits 256 x.natAbs).map UInt8.ofNat).reverse

/-- The bound of the loop of `MineNonce`. -/
def MinerConfig.nonces (cfg : MinerConfig) : UInt64 :=
  if cfg.maxNonce = 0 then 0xFFFFFFFFFFFFFFFF else cfg.maxNonce

/-- `notifyBlockRaceLost` and `notifyBlockMined` leave out the rewards. -/
def rewardless (txs : List Tx) : List Tx := txs.filter (·.type ≠ "Reward")

variable (E : Env) (cfg : MinerConfig)

/-- `HeaderBuilderFactory`: the bytes of a header with a nonce and a time. -/
def buildHeader (hdr : BlockHeader) (nonce : UInt64) (ts : Int64) : Bytes :=
  serializeHeader E { hdr with timestamp := ts, nonce := nonce }

/-- A turn of the loop of `MineNonce`, and what `MineAndApply` does when it ends. -/
def mineNonce (now : Int64) (n : Peer) (stop : ℕ) (hdr : BlockHeader) (target : ℤ) (drained : Drained)
    (nonce : UInt64) : Option (Effect Peer Work) :=
  if target = 0 ∨ cfg.nonces ≤ nonce ∨ stop ∈ n.closed then goOn n [.requeue drained, .finish]
  else
    let header := buildHeader E hdr nonce now
    if (toNatBE (E.sha256 header) : ℤ) ≤ target then
      let hdr' := { hdr with timestamp := now, nonce := nonce }
      match assembleBlock E hdr' drained.pending cfg.pow.pubKey with
      | .error _ => none
      | .ok block =>
        if isBlockComplexityValid E block (some (toNatBE (elems hdr'.difficulty))) then
          goOn n [.mined stop block header]
        else goOn n [.requeue drained, .again stop]
    else goOn n [.attempt stop hdr target drained (nonce + 1)]

/-- A turn of a goroutine. A goroutine that waits, or whose `AssembleBlock` panics, has no turn. -/
def exec (now : Int64) (order : MapOrder) (n : Peer) : Work → Option (Effect Peer Work)
  -- `handleNamecoinTransactionMessage`
  | .message msg => match admission E (transactionState n.ledger) msg with
    | .ok (tx, txID) => goOn n [.add tx txID]
    | .error _ => goOn n []
  | .add tx txID =>
    goOn { n.setBuffer (n.ledger.txBuffer.add tx txID) with admitted := n.admitted ++ [(txID, tx)] } []
  -- `handleNamecoinBlockMessage`
  | .receive blk =>
    let r := appendBlockToLongestChain E order n.ledger.service blk
    goOn (n.setService r.1) (match r.2 with
      | (_, some e) => [.notify (some e) blk.transactions]
      | (true, none) => [.remove blk.transactions blk.transactions]
      | (false, none) => [])
  | .remove [] txs => goOn n [.stop, .restart, .notify none txs]
  | .remove (tx :: left) txs => match buildTransactionID E tx with
    | .ok txID => goOn (n.setBuffer (n.ledger.txBuffer.remove txID)) [.remove left txs]
    | .error _ => goOn n []
  | .restart => goOn n (if n.minerDisabled then [] else [.start])
  | .notify err txs => goOn { n with ledger := notifyTxs E err n.ledger txs } []
  -- `StartMiner`, `StopMiner`, `DisableMiner` and `EnableMiner`
  | .start =>
    if n.minerDisabled ∨ n.minerStopping ∨ n.minerStopCh ≠ none then goOn n []
    else some ⟨{ n with
        minerStopCh := some n.channels
        channels := n.channels + 1
        minerWG := n.minerWG + 1 }, [], [[.mine n.channels]]⟩
  | .stop => match n.minerStopCh with
    | none => goOn n []
    | some ch =>
      if n.minerStopping then goOn n []
      else goOn { n with minerStopping := true, closed := ch :: n.closed, minerStopCh := none }
        [.wait, .stopped]
  | .wait => if n.minerWG = 0 then goOn n [] else none
  | .stopped => goOn { n with minerStopping := false } []
  | .disable =>
    if n.minerDisabled then goOn n []
    else goOn { n with minerDisabled := true, minerStopCh := none } (match n.minerStopCh with
      | none => []
      | some ch => [.close ch, .wait])
  | .close ch => goOn { n with closed := ch :: n.closed } []
  | .enable => goOn { n with minerDisabled := false } []
  -- `MinerDoWork`
  | .mine stop => goOn n (if n.minerDisabled then [.finish] else [.look stop])
  | .look stop => goOn n (if stop ∈ n.closed then [.finish] else [.snapshot stop])
  | .snapshot stop =>
    let chain := getLongestChain n.ledger.service
    goOn n [.target stop (cloneBytes chain.headHash) chain.headHeight]
  | .target stop headHash headHeight =>
    let target := (nextPowTarget (getLongestChain n.ledger.service)).getD (effectiveTarget cfg.pow.target)
    let nextHeight := if headHash = none then 0 else headHeight + 1
    goOn n [.drain stop ⟨nextHeight, headHash, none, now, 0, cfg.pow.pubKey, none⟩ target]
  | .drain stop base target =>
    let (drained, buffer) := n.ledger.txBuffer.drain
    match assembleBlock E { base with difficulty := some (bigBytes target) } drained.pending
        cfg.pow.pubKey with
    | .error _ => none
    | .ok block => goOn (n.setBuffer buffer) [.attempt stop block.header target drained 0]
  | .attempt stop hdr target drained nonce => mineNonce E cfg now n stop hdr target drained nonce
  | .requeue drained => goOn (n.setBuffer (n.ledger.txBuffer.requeue drained.order drained.snapshot)) []
  | .mined stop block _ => goOn n (if stop ∈ n.closed then [.finish] else [.append stop block])
  | .append stop block =>
    let r := appendBlockToLongestChain E order n.ledger.service block
    goOn (n.setService r.1) (match r.2 with
      | (_, some e) => [.notify (some e) block.transactions, .again stop]
      | (true, none) => [.notify none (rewardless block.transactions), .again stop]
      | (false, none) => [.notify (some (.msg "block lost race, transaction not in canonical chain"))
          (rewardless block.transactions), .again stop])
  | .again stop => goOn n (if stop ∈ n.closed then [.finish] else [.mine stop])
  | .finish => goOn { n with minerWG := n.minerWG - 1 } []

/-- What starts a goroutine. -/
def isCall : Work → Bool
  | .message _ => true
  | .receive _ => true
  | .start => true
  | .stop => true
  | .disable => true
  | .enable => true
  | _ => false

/-- A call comes in, or a goroutine takes a turn. -/
inductive Event
  | call (w : Work)
  | turn (t : ℕ) (now : Int64) (order : MapOrder)

def step (p : Pool Peer Work) : Event → Option (Pool Peer Work)
  | .call w => if isCall w then some (p.spawn [w]) else none
  | .turn t now order => p.run (exec E cfg now order) t

/-- A node that has just been made. -/
def freshPeer (ledger : NodeState) : Peer := ⟨ledger, false, false, none, 0, 0, [], []⟩

/-- A node whose chain has been loaded from a store, and its goroutines. -/
def mining : System (Pool Peer Work) Event where
  start p := ∃ S store blocks, p = ⟨freshPeer (newPeer E cfg.pow S store blocks), []⟩
  step := step E cfg

variable {E cfg} {now : Int64} {order : MapOrder} {n : Peer} {w : Work} {e : Effect Peer Work}
  {p p' : Pool Peer Work}

/-! ### What a turn does to the ledger and the buffer -/

/-- The work of the handlers and of an iteration that has something to do with
the ledger or the buffer. -/
def touches : Work → Bool
  | .add _ _ => true
  | .receive _ => true
  | .remove _ _ => true
  | .drain _ _ _ => true
  | .attempt _ _ _ _ _ => true
  | .requeue _ => true
  | .mined _ _ _ => true
  | .append _ _ => true
  | _ => false

/-- Work that holds no transactions and removes none. A transaction that is about to
be added has its own ID. -/
def Light (E : Env) : Work → Prop
  | .add tx txID => buildTransactionID E tx = .ok txID
  | .remove _ _ => False
  | .attempt _ _ _ _ _ => False
  | .requeue _ => False
  | .mined _ _ _ => False
  | .append _ _ => False
  | _ => True

/-- What a turn does to the ledger and the buffer, and what comes next. -/
inductive Does (E : Env) (order : MapOrder) (n : Peer) : Work → Effect Peer Work → Prop
  | aside {w : Work} {e : Effect Peer Work} :
    touches w = false → e.shared.ledger.service = n.ledger.service →
    e.shared.ledger.txBuffer = n.ledger.txBuffer → e.shared.admitted = n.admitted →
    (∀ w' ∈ e.next ++ e.spawned.flatten, Light E w') → Does E order n w e
  | add (tx : Tx) (txID : String) : Does E order n (.add tx txID)
    ⟨{ n.setBuffer (n.ledger.txBuffer.add tx txID) with admitted := n.admitted ++ [(txID, tx)] }, [], []⟩
  | receive (blk : Block) {next : List Work} :
    (appendBlockToLongestChain E order n.ledger.service blk).2 ≠ (true, none) →
    (∀ w' ∈ next, Light E w') → Does E order n (.receive blk)
    ⟨n.setService (appendBlockToLongestChain E order n.ledger.service blk).1, next, []⟩
  | receiveHead (blk : Block) : (appendBlockToLongestChain E order n.ledger.service blk).2 =
      (true, none) →
    Does E order n (.receive blk) ⟨n.setService
      (appendBlockToLongestChain E order n.ledger.service blk).1,
      [.remove blk.transactions blk.transactions], []⟩
  | removed (txs : List Tx) : Does E order n (.remove [] txs) ⟨n, [.stop, .restart, .notify none txs], []⟩
  | remove {tx : Tx} {txID : String} (left txs : List Tx) : buildTransactionID E tx = .ok txID →
    Does E order n (.remove (tx :: left) txs)
      ⟨n.setBuffer (n.ledger.txBuffer.remove txID), [.remove left txs], []⟩
  | nameless {tx : Tx} {err : Err} (left txs : List Tx) : buildTransactionID E tx = .error err →
    Does E order n (.remove (tx :: left) txs) ⟨n, [], []⟩
  | drain (stop : ℕ) (base hdr : BlockHeader) (target : ℤ) : Does E order n (.drain stop base target)
    ⟨n.setBuffer newTxBuffer, [.attempt stop hdr target n.ledger.txBuffer.drain.1 0], []⟩
  | search (stop : ℕ) (hdr : BlockHeader) (target : ℤ) (drained : Drained) (nonce : UInt64) :
    Does E order n (.attempt stop hdr target drained nonce)
    ⟨n, [.attempt stop hdr target drained (nonce + 1)], []⟩
  | giveUp {w : Work} (stop : ℕ) (hdr : BlockHeader) (target : ℤ) (drained : Drained) (nonce : UInt64) :
      Light E w →
    Does E order n (.attempt stop hdr target drained nonce) ⟨n, [.requeue drained, w], []⟩
  | find {block : Block} {reward : Tx} {hashed : Bytes} (stop : ℕ) (hdr : BlockHeader) (target : ℤ)
      (drained : Drained)
    (nonce : UInt64) : block.transactions = reward :: drained.pending →
    Does E order n (.attempt stop hdr target drained nonce) ⟨n, [.mined stop block hashed], []⟩
  | requeue (drained : Drained) : Does E order n (.requeue drained)
    ⟨n.setBuffer (n.ledger.txBuffer.requeue drained.order drained.snapshot), [], []⟩
  | mined (stop : ℕ) (block : Block) (hashed : Bytes) : Does E order n (.mined stop block hashed)
    ⟨n, if stop ∈ n.closed then [.finish] else [.append stop block], []⟩
  | append {next : List Work} (stop : ℕ) (block : Block) : (∀ w' ∈ next, Light E w') →
    Does E order n (.append stop block)
      ⟨n.setService (appendBlockToLongestChain E order n.ledger.service block).1, next, []⟩

theorem assembleBlock_transactions {h : BlockHeader} {pending : List Tx} {pubKey : String} {block : Block}
    (ha : assembleBlock E h pending pubKey = .ok block) :
    block.transactions = blockReward h.height pubKey :: pending := by
  obtain ⟨root, -, he⟩ := except_bind_ok_iff.mp ha
  cases he
  rfl

theorem mineNonce_does {stop : ℕ} {hdr : BlockHeader} {target : ℤ} {drained : Drained} {nonce : UInt64}
    (h : mineNonce E cfg now n stop hdr target drained nonce = some e) :
    Does E order n (.attempt stop hdr target drained nonce) e := by
  unfold mineNonce at h
  dsimp only at h
  split_ifs at h
  · cases h
    exact .giveUp _ _ _ _ _ True.intro
  · cases ha : assembleBlock E { hdr with timestamp := now, nonce := nonce } drained.pending
        cfg.pow.pubKey with
    | error err =>
      rw [ha] at h
      cases h
    | ok block =>
      rw [ha] at h
      dsimp only at h
      split_ifs at h
      · cases h
        exact .find _ _ _ _ _ (assembleBlock_transactions ha)
      · cases h
        exact .giveUp _ _ _ _ _ True.intro
  · cases h
    exact .search _ _ _ _ _

theorem aside_goOn {n' : Peer} {next : List Work} (hw : touches w = false) (h : goOn n' next = some e)
    (hservice : n'.ledger.service = n.ledger.service) (hbuffer : n'.ledger.txBuffer = n.ledger.txBuffer)
    (hadmitted : n'.admitted = n.admitted) (hnext : ∀ w' ∈ next, Light E w') : Does E order n w e := by
  cases h
  refine .aside hw hservice hbuffer hadmitted fun w' hmem => hnext w' ?_
  rwa [List.flatten_nil, List.append_nil] at hmem

theorem message_does {msg : Tx} (h : exec E cfg now order n (.message msg) = some e) :
    Does E order n (.message msg) e := by
  rw [exec] at h
  cases ha : admission E (transactionState n.ledger) msg with
  | error err =>
    rw [ha] at h
    exact aside_goOn rfl h rfl rfl rfl (by simp)
  | ok r =>
    rw [ha] at h
    obtain ⟨ins, outs, -, -, -, -, -, -, -, hid, -⟩ := admit_ok_iff.mp ha
    refine aside_goOn rfl h rfl rfl rfl fun w' hw => ?_
    rw [List.mem_singleton.mp hw]
    exact hid

theorem receive_does {blk : Block} (h : exec E cfg now order n (.receive blk) = some e) :
    Does E order n (.receive blk) e := by
  cases h
  cases hr : (appendBlockToLongestChain E order n.ledger.service blk).2 with
  | mk changed err =>
    cases err with
    | some err => exact .receive blk (by rw [hr]; simp) (by simp [Light])
    | none =>
      cases changed with
      | true => exact .receiveHead blk hr
      | false => exact .receive blk (by rw [hr]; simp) (by simp)

theorem remove_does {left txs : List Tx} (h : exec E cfg now order n (.remove left txs) = some e) :
    Does E order n (.remove left txs) e := by
  cases left with
  | nil =>
    cases h
    exact .removed txs
  | cons tx left =>
    rw [exec] at h
    cases hid : buildTransactionID E tx with
    | error err =>
      rw [hid] at h
      cases h
      exact .nameless left txs hid
    | ok txID =>
      rw [hid] at h
      cases h
      exact .remove left txs hid

theorem drain_does {stop : ℕ} {base : BlockHeader} {target : ℤ}
    (h : exec E cfg now order n (.drain stop base target) = some e) :
    Does E order n (.drain stop base target) e := by
  rw [exec] at h
  dsimp only at h
  cases ha : assembleBlock E { base with difficulty := some (bigBytes target) }
    n.ledger.txBuffer.drain.1.pending cfg.pow.pubKey with
  | error err =>
    rw [ha] at h
    cases h
  | ok block =>
    rw [ha] at h
    cases h
    exact .drain stop base block.header target

theorem start_does (h : exec E cfg now order n .start = some e) : Does E order n .start e := by
  rw [exec] at h
  split_ifs at h
  · exact aside_goOn rfl h rfl rfl rfl (by simp)
  · cases h
    exact .aside rfl rfl rfl rfl (by simp [Light])

theorem stop_does (h : exec E cfg now order n .stop = some e) : Does E order n .stop e := by
  rw [exec] at h
  split at h
  · exact aside_goOn rfl h rfl rfl rfl (by simp)
  · split_ifs at h
    · exact aside_goOn rfl h rfl rfl rfl (by simp)
    · exact aside_goOn rfl h rfl rfl rfl (by simp [Light])

theorem disable_does (h : exec E cfg now order n .disable = some e) : Does E order n .disable e := by
  rw [exec] at h
  split_ifs at h
  · exact aside_goOn rfl h rfl rfl rfl (by simp)
  · refine aside_goOn rfl h rfl rfl rfl ?_
    cases n.minerStopCh with
    | none => simp
    | some ch => simp [Light]

/-- **Every turn** does one of these things. -/
theorem exec_does (h : exec E cfg now order n w = some e) : Does E order n w e := by
  cases w with
  | message msg => exact message_does h
  | add tx txID =>
    cases h
    exact .add tx txID
  | receive blk => exact receive_does h
  | remove left txs => exact remove_does h
  | drain stop base target => exact drain_does h
  | attempt stop hdr target drained nonce => exact mineNonce_does h
  | requeue drained =>
    cases h
    exact .requeue drained
  | mined stop block hashed =>
    cases h
    exact .mined stop block hashed
  | append stop block =>
    cases h
    refine .append stop block ?_
    split <;> simp [Light]
  | notify err txs =>
    obtain ⟨hservice, hbuffer⟩ := service_notifyTxs (E := E) err txs n.ledger
    exact aside_goOn rfl h hservice hbuffer rfl (by simp)
  | start => exact start_does h
  | stop => exact stop_does h
  | wait =>
    rw [exec] at h
    split_ifs at h
    exact aside_goOn rfl h rfl rfl rfl (by simp)
  | restart =>
    refine aside_goOn rfl h rfl rfl rfl ?_
    split_ifs <;> simp [Light]
  | disable => exact disable_does h
  | mine stop =>
    refine aside_goOn rfl h rfl rfl rfl ?_
    split_ifs <;> simp [Light]
  | look stop =>
    refine aside_goOn rfl h rfl rfl rfl ?_
    split_ifs <;> simp [Light]
  | again stop =>
    refine aside_goOn rfl h rfl rfl rfl ?_
    split_ifs <;> simp [Light]
  | _ => exact aside_goOn rfl h rfl rfl rfl (by simp [Light])

/-! ### What goroutines hold -/

/-- What is about to be added has its own ID, and so does what has been taken from the buffer. -/
def Proper (E : Env) : Work → Prop
  | .add tx txID => buildTransactionID E tx = .ok txID
  | .attempt _ _ _ drained _ => Taken E drained
  | .requeue drained => Taken E drained
  | _ => True

theorem Light.proper (h : Light E w) : Proper E w := by
  cases w with
  | add => exact h
  | attempt => exact h.elim
  | requeue => exact h.elim
  | _ => exact True.intro

/-- The chains are replays of blocks, and transactions are under their own IDs wherever they are. -/
structure Orderly (E : Env) (p : Pool Peer Work) : Prop where
  replayed : AllReplayed E p.shared.ledger.service
  tidy : Tidy E p.shared.ledger.txBuffer
  proper : ∀ w ∈ p.tasks, Proper E w

theorem replayed_append (h : AllReplayed E n.ledger.service) (blk : Block) :
    AllReplayed E (appendBlockToLongestChain E order n.ledger.service blk).1 :=
  appendBlockToChain_invariant (fun _ _ _ _ ht hs => replayed_turn ht hs) h

theorem Does.orderly (h : Does E order n w e) (hr : AllReplayed E n.ledger.service)
    (ht : Tidy E n.ledger.txBuffer) (hp : Proper E w) : AllReplayed E e.shared.ledger.service ∧
    Tidy E e.shared.ledger.txBuffer ∧
      ∀ w' ∈ e.next ++ e.spawned.flatten, Proper E w' := by
  cases h with
  | aside _ hservice hbuffer _ hnext =>
    rw [hservice, hbuffer]
    exact ⟨hr, ht, fun w' hw => (hnext w' hw).proper⟩
  | add tx txID => exact ⟨hr, ht.add hp, by simp⟩
  | receive blk _ hnext =>
    exact ⟨replayed_append hr blk, ht, fun w' hw => (hnext w' (by simpa using hw)).proper⟩
  | receiveHead blk => exact ⟨replayed_append hr blk, ht, by simp [Proper]⟩
  | removed txs => exact ⟨hr, ht, by simp [Proper]⟩
  | @remove tx txID => exact ⟨hr, ht.remove txID, by simp [Proper]⟩
  | nameless => exact ⟨hr, ht, by simp⟩
  | drain => exact ⟨hr, tidy_newTxBuffer E, by simpa [Proper] using ht.drain.1⟩
  | search => exact ⟨hr, ht, by simpa [Proper] using hp⟩
  | @giveUp w' stop hdr target drained nonce hlight =>
    refine ⟨hr, ht, fun w'' hw => ?_⟩
    simp only [List.flatten_nil, List.append_nil, List.mem_cons, List.not_mem_nil, or_false] at hw
    rcases hw with rfl | rfl
    · exact hp
    · exact hlight.proper
  | find => exact ⟨hr, ht, by simp [Proper]⟩
  | requeue drained =>
    exact ⟨hr, (ht.requeue (fun id t hl => (Taken.named hp id t hl).2) drained.order).1, by simp⟩
  | mined stop block hashed =>
    refine ⟨hr, ht, fun w' hw => ?_⟩
    dsimp only at hw
    split_ifs at hw
    · simp at hw
      rw [hw]
      exact True.intro
    · simp at hw
      rw [hw]
      exact True.intro
  | append stop block hnext =>
    exact ⟨replayed_append hr block, ht, fun w' hw => (hnext w' (by simpa using hw)).proper⟩

theorem orderly_step {a : Event} (h : Orderly E p) (hs : step E cfg p a = some p') : Orderly E p' := by
  cases a with
  | call w =>
    rw [step] at hs
    split_ifs at hs with hc
    cases hs
    refine ⟨h.replayed, h.tidy, fun w' hw => ?_⟩
    rw [spawn_tasks] at hw
    rcases Multiset.mem_add.mp hw with hw | hw
    · rw [Multiset.mem_coe, List.mem_singleton] at hw
      subst hw
      cases w' <;> first | exact True.intro | cases hc
    · exact h.proper w' hw
  | turn t now order =>
    obtain ⟨w, e, others, -, he, hshared, hold, hnew⟩ := run_tasks hs
    have hw : w ∈ p.tasks := by
      rw [hold]
      exact Multiset.mem_cons_self w others
    obtain ⟨hr, ht, hnext⟩ := (exec_does he).orderly h.replayed h.tidy (h.proper w hw)
    rw [← hshared] at hr ht
    refine ⟨hr, ht, fun w' hw' => ?_⟩
    rw [hnew] at hw'
    rcases Multiset.mem_add.mp hw' with hw' | hw'
    · exact hnext w' hw'
    · exact h.proper w' (by rw [hold]; exact Multiset.mem_cons_of_mem hw')

theorem orderly_start (h : (mining E cfg).start p) : Orderly E p := by
  obtain ⟨S, store, blocks, rfl⟩ := h
  exact ⟨(newPeer_service cfg.pow).2, tidy_newTxBuffer E, fun w hw => by simp [Pool.tasks] at hw⟩

/-- **In every state reached** transactions are under their own IDs. -/
theorem orderly_reach {C : Pool Peer Work → Event → Prop} (h : (mining E cfg).Reach C p) : Orderly E p :=
  h.invariant (fun _ hs => orderly_start hs) fun _ _ _ _ hs hI => orderly_step hI hs

/-! ### A node that starts to mine -/

section sample

variable {C : Pool Peer Work → Event → Prop} {target : ℤ} {msg tx : Tx} {txID : String} {blk : Block}

theorem reach_turn (t : ℕ) {rest : List Work} (p₁ : Pool Peer Work) (h : (mining E cfg).Reach C p)
    (hC : C p (.turn t 0 numbered)) (ht : p.threads[t]? = some (w :: rest))
    (he : exec E cfg 0 numbered p.shared w = some e)
    (h₁ : p₁ = ⟨e.shared, p.threads.set t (e.next ++ rest) ++ e.spawned⟩) : (mining E cfg).Reach C p₁ :=
  .step h hC (run_eq_some.mpr ⟨w, rest, e, ht, he, h₁⟩)

theorem reach_call (w : Work) (h : (mining E cfg).Reach C p) (hC : C p (.call w)) (hw : isCall w = true) :
    (mining E cfg).Reach C (p.spawn [w]) :=
  .step h hC (if_pos hw)

def sampleConfig (target : ℤ) : MinerConfig := ⟨staticConfig target, 0⟩

/-- A node on an empty store. -/
def emptyPeer (E : Env) (target : ℤ) : Peer :=
  freshPeer ⟨newChainService E [.mem ∅] (emptyChain target 0), newTxBuffer, ∅, []⟩

theorem start_emptyPeer (E : Env) (target : ℤ) :
    (mining E (sampleConfig target)).start ⟨emptyPeer E target, []⟩ :=
  ⟨[.mem ∅], 0, [], rfl⟩

theorem not_applied_emptyPeer (E : Env) (target : ℤ) (id : String) :
    ¬ Applied (emptyPeer E target).ledger.service id := Finset.notMem_empty id

/-- The work with blocks. -/
def handlesBlock : Work → Bool
  | .receive _ => true
  | .remove _ _ => true
  | .mined _ _ _ => true
  | .append _ _ => true
  | _ => false

/-- A call, or a turn in a node with the given service where there is no such work. -/
def Quiet (s : ChainService) (p : Pool Peer Work) : Event → Prop
  | .call _ => True
  | .turn _ _ _ => p.shared.ledger.service = s ∧ ∀ w ∈ p.tasks, handlesBlock w = false

theorem quiet_turn {s : ChainService} {t : ℕ} (hservice : p.shared.ledger.service = s)
    (hw : p.threads.flatten.any handlesBlock = false) : Quiet s p (.turn t now order) :=
  ⟨hservice, fun w h => by simpa using List.any_eq_false.mp hw w (Multiset.mem_coe.mp h)⟩

theorem exec_message (h : admission E (transactionState n.ledger) msg = .ok (tx, txID)) :
    exec E cfg now order n (.message msg) = goOn n [.add tx txID] := by
  rw [exec, h]

theorem exec_drain {stop : ℕ} {base : BlockHeader}
    (h : assembleBlock E { base with difficulty := some (bigBytes target) }
    n.ledger.txBuffer.drain.1.pending
      cfg.pow.pubKey = .ok blk) : exec E cfg now order n (.drain stop base target) =
        goOn (n.setBuffer newTxBuffer) [.attempt stop blk.header target n.ledger.txBuffer.drain.1 0] := by
  rw [exec]
  dsimp only
  rw [h]
  rfl

/-- What is taken from a buffer with one transaction. -/
def takenOne (tx : Tx) (txID : String) : Drained := (newTxBuffer.add tx txID).drain.1

theorem takenOne_eq (tx : Tx) (txID : String) :
    takenOne tx txID = ⟨[tx], [txID], (∅ : Map String Tx).insert txID tx⟩ := by
  unfold takenOne TxBuffer.add
  rw [if_neg (show txID ∉ newTxBuffer.txs from Finmap.notMem_empty)]
  unfold TxBuffer.drain TxBuffer.list
  simp [newTxBuffer]

/-- A node that has admitted one transaction. -/
def admittedOne (E : Env) (target : ℤ) (tx : Tx) (txID : String) : Peer :=
  { (emptyPeer E target).setBuffer (newTxBuffer.add tx txID) with admitted := [(txID, tx)] }

/-- The node after its miner has taken the transaction. -/
def takenPeer (E : Env) (target : ℤ) (tx : Tx) (txID : String) : Peer :=
  { emptyPeer E target with minerStopCh := some 0, minerWG := 1, channels := 1, admitted := [(txID, tx)] }

theorem reach_admitted (hC : ∀ p a, Quiet (emptyPeer E target).ledger.service p a → C p a)
    (hadm : admission E newState msg = .ok (tx, txID)) :
    (mining E (sampleConfig target)).Reach C ⟨admittedOne E target tx txID, [[]]⟩ := by
  have h₁ := reach_call (.message msg) (.start (start_emptyPeer E target)) (hC _ _ True.intro) rfl
  have h₂ := reach_turn 0 ⟨_, [[.add tx txID]]⟩ h₁ (hC _ _ (quiet_turn rfl rfl)) rfl
    (exec_message hadm) rfl
  exact reach_turn 0 ⟨_, [[]]⟩ h₂ (hC _ _ (quiet_turn rfl rfl)) rfl rfl rfl

/-- **The miner takes an admitted transaction** and starts to look for a nonce. -/
theorem reach_taken (hC : ∀ p a, Quiet (emptyPeer E target).ledger.service p a → C p a)
    (hadm : admission E newState msg = .ok (tx, txID))
    (hblk : assembleBlock E ⟨0, none, none, 0, 0, "", some (bigBytes target)⟩ [tx] "" = .ok blk) :
    (mining E (sampleConfig target)).Reach C
      ⟨takenPeer E target tx txID, [[], [], [.attempt 0 blk.header target (takenOne tx txID) 0]]⟩ := by
  have hblk' : assembleBlock E ⟨0, none, none, 0, 0, "", some (bigBytes target)⟩
    (takenOne tx txID).pending "" = .ok blk := by
    rw [takenOne_eq]
    exact hblk
  let n : Peer := { admittedOne E target tx txID with minerStopCh := some 0, minerWG := 1, channels := 1 }
  have h₁ := reach_call .start (reach_admitted hC hadm) (hC _ _ True.intro) rfl
  have h₂ := reach_turn 1 ⟨n, [[], [], [.mine 0]]⟩ h₁ (hC _ _ (quiet_turn rfl rfl)) rfl rfl rfl
  have h₃ := reach_turn 2 ⟨n, [[], [], [.look 0]]⟩ h₂ (hC _ _ (quiet_turn rfl rfl)) rfl rfl rfl
  have h₄ := reach_turn 2 ⟨n, [[], [], [.snapshot 0]]⟩ h₃ (hC _ _ (quiet_turn rfl rfl)) rfl rfl rfl
  have h₅ := reach_turn 2 ⟨n, [[], [], [.target 0 none 0]]⟩ h₄ (hC _ _ (quiet_turn rfl rfl)) rfl rfl rfl
  have h₆ := reach_turn 2 ⟨n, [[], [], [.drain 0 ⟨0, none, none, 0, 0, "", none⟩ target]]⟩ h₅
    (hC _ _ (quiet_turn rfl rfl)) rfl rfl rfl
  exact reach_turn 2 _ h₆ (hC _ _ (quiet_turn rfl rfl)) rfl (exec_drain hblk') rfl

end sample

end Namecoin.Node.Miner
