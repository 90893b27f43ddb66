import Namecoin.Chain.Defs
import Namecoin.Lib.WorkList

/-! # The chain service

`ChainService` of `namecoin_chain_service.go`: the chains a node knows, the index of their blocks, and
the pool of blocks that wait for their parent. Chains are shared by reference; here a chain is named by
its position in `Chains`, and the stores of all chains are in one heap.

Go visits the chains of a `blockMeta` in no fixed order. The order is a parameter (`MapOrder`),
and may be another one at every turn of the loop over pending blocks. The locks are left out: a
call holds the lock of the service from its beginning to its end. A panic below `ApplyBlock` is an
error like any other here. -/

namespace Namecoin.Service.Defs

open Lib.Maps Lib.ByteStrings Lib.WorkList Types.Defs Types.BlockCodec State.Defs Chain.Stores
open Chain.Defs

structure BlockMeta where
  height : UInt64
  chains : Finset ℕ

/-- `ChainService`; the index of the longest chain is in range. -/
structure ChainService where
  stores : Heap
  chains : List NamecoinChain
  longestChainIndex : ℕ
  orphansByPrev : Map String (List Block)
  blockIndex : Map String BlockMeta
  longest_lt : longestChainIndex < chains.length

/-- The orders in which the members of a `map[*NamecoinChain]struct{}` are visited, one for each turn. -/
structure MapOrder where
  visit : ℕ → Finset ℕ → List ℕ
  mem_visit : ∀ turn chains i, i ∈ visit turn chains ↔ i ∈ chains
  nodup_visit : ∀ turn chains, (visit turn chains).Nodup

def getLongestChain (s : ChainService) : NamecoinChain := s.chains.get ⟨s.longestChainIndex, s.longest_lt⟩

/-- A chain is appended to `Chains`. -/
def addChain (s : ChainService) (S : Heap) (c : NamecoinChain) : ChainService :=
  ⟨S, s.chains ++ [c], s.longestChainIndex, s.orphansByPrev, s.blockIndex, by
    rw [List.length_append]; exact Nat.lt_add_right _ s.longest_lt⟩

/-- The chain number `i` has changed. -/
def setChain (s : ChainService) (S : Heap) (i : ℕ) (c : NamecoinChain) : ChainService :=
  ⟨S, s.chains.set i c, s.longestChainIndex, s.orphansByPrev, s.blockIndex, by
    rw [List.length_set]; exact s.longest_lt⟩

/-! ### The index -/

def hashKeyHex (b : Slice UInt8) : String := hexEncode (elems b)

/-- The entry of a block in the index after one more chain has been registered for it. -/
def metaWith (old : Option BlockMeta) (height : UInt64) (chain : ℕ) : BlockMeta :=
  match old with
  | none => ⟨height, {chain}⟩
  | some m => ⟨m.height, insert chain m.chains⟩

/-- `registerBlockUnlocked`. -/
def registerBlock (s : ChainService) (chain : ℕ) (blk : Block) : ChainService :=
  if blk.hash = none then s
  else
    let key := hashKeyHex blk.hash
    { s with
      blockIndex := s.blockIndex.insert key (metaWith (s.blockIndex.lookup key) blk.header.height chain) }

/-- `blockKnownUnlocked`. -/
def blockKnown (s : ChainService) (hash : Slice UInt8) (height : UInt64) : Prop :=
  hash ≠ none ∧ ∃ m ∈ s.blockIndex.lookup (hashKeyHex hash), m.height = height

instance (s : ChainService) (hash : Slice UInt8) (height : UInt64) :
    Decidable (blockKnown s hash height) := by
  unfold blockKnown
  cases s.blockIndex.lookup (hashKeyHex hash) with
  | none => exact .isFalse (by simp)
  | some m => exact decidable_of_iff (hash ≠ none ∧ m.height = height) (by simp)

variable (E : Env)

/-- The body of the loop of `indexChainUnlocked`. -/
def indexHeight (i : ℕ) (c : NamecoinChain) (s : ChainService) (h : ℕ) : ChainService :=
  match blockAtHeight E s.stores c (UInt64.ofNat h) with
  | .error _ => s
  | .ok blk => registerBlock s i blk

/-- `indexChainUnlocked`. (At the last height of 64 bits the loop of the code does not end.) -/
def indexChain (s : ChainService) (i : ℕ) (c : NamecoinChain) : ChainService :=
  (List.range (c.headHeight.toNat + 1)).foldl (indexHeight E i c) s

def newChainService (S : Heap) (chain : NamecoinChain) : ChainService :=
  indexChain E ⟨S, [chain], 0, ∅, ∅, by simp⟩ 0 chain

/-! ### Orphans -/

def cloneBlock (b : Block) : Block :=
  { b with
    header := { b.header with
      prevHash := cloneBytes b.header.prevHash
      txRoot := cloneBytes b.header.txRoot
      difficulty := cloneBytes b.header.difficulty }
    hash := cloneBytes b.hash }

/-- The blocks that wait for a parent. -/
def waiting (s : ChainService) (key : String) : List Block := (s.orphansByPrev.lookup key).getD []

/-- `storeOrphanUnlocked`. -/
def storeOrphan (s : ChainService) (blk : Block) : ChainService :=
  if blk.header.height = 0 ∨ blk.header.prevHash = none then s
  else
    let bc := cloneBlock blk
    let k := hashKeyHex bc.header.prevHash
    { s with orphansByPrev := s.orphansByPrev.insert k (waiting s k ++ [bc]) }

/-- `popWaitingChildrenUnlocked`. -/
def popWaitingChildren (s : ChainService) (parentHash : Slice UInt8) : ChainService × List Block :=
  if parentHash = none then (s, [])
  else
    let k := hashKeyHex parentHash
    if waiting s k = [] then (s, [])
    else ({ s with orphansByPrev := s.orphansByPrev.erase k }, waiting s k)

/-! ### Parent lookup and forks -/

def newEmptyChainFrom (S : Heap) (ref : NamecoinChain) : Heap × NamecoinChain :=
  let (S, store) := newOverlayStore S ref.store
  (S, ⟨store, newState, none, 0, ref.powSeed, ref.powSeed, ref.powParams, 0⟩)

/-- A chain without blocks. -/
def isEmpty (c : NamecoinChain) : Prop := c.headHash = none ∧ c.headHeight = 0

instance (c : NamecoinChain) : Decidable (isEmpty c) := by unfold isEmpty; infer_instance

/-- The first chain that satisfies `p`, with its number. -/
def firstChain (s : ChainService) (p : NamecoinChain → Prop) [DecidablePred p] :
    Option (NamecoinChain × ℕ) :=
  s.chains.zipIdx.find? fun e => p e.1

/-- `handleGenesisUnlocked`. -/
def handleGenesis (s : ChainService) (index : ℤ) : Except Err (ChainService × NamecoinChain × ℕ) :=
  match firstChain s isEmpty with
  | some (c, i) => .ok (s, c, i)
  | none =>
    if index < 0 then .error .unknownParent
    else match s.chains[index.toNat]? with
      | none => .error .unknownParent
      | some ref =>
        let (S, origin) := newEmptyChainFrom s.stores ref
        .ok (addChain s S origin, origin, s.chains.length)

/-- `findHeadByHashUnlocked`. -/
def findHeadByHash (s : ChainService) (hash : Slice UInt8) : Option (NamecoinChain × ℕ) :=
  firstChain s fun c => bytesEqual c.headHash hash

/-- `getParentMetaUnlocked`. -/
def getParentMeta (s : ChainService) (parentHash : Slice UInt8) : Except Err BlockMeta :=
  match s.blockIndex.lookup (hashKeyHex parentHash) with
  | none => .error .unknownParent
  | some m => .ok m

/-- The loop of `forkFromParentMetaUnlocked` that picks a longest of the given chains. -/
def pickBase (s : ChainService) : List ℕ → Option NamecoinChain → Option NamecoinChain
  | [], base => base
  | i :: rest, base => match s.chains[i]?, base with
    | none, base => pickBase s rest base
    | some ch, none => pickBase s rest (some ch)
    | some ch, some b => pickBase s rest (if b.headHeight < ch.headHeight then some ch else some b)

/-- `forkFromParentMetaUnlocked`. -/
def forkFromParentMeta (visit : Finset ℕ → List ℕ) (s : ChainService) (m : BlockMeta) :
    Except Err (ChainService × NamecoinChain × ℕ) :=
  match pickBase s (visit m.chains) none with
  | none => .error .unknownParent
  | some base => do
    let (S, store) := newOverlayStore s.stores base.store
    let origin ← base.forkUpToHeight E S m.height store
    return (indexChain E (addChain s S origin) s.chains.length origin, origin, s.chains.length)

/-- `ensureChainForParentUnlocked`: the chain, with its number and the service after it has been made. -/
def ensureChainForParent (visit : Finset ℕ → List ℕ) (s : ChainService) (index : ℤ) (blk : Block) :
    Except Err (ChainService × NamecoinChain × ℕ) :=
  if blk.header.height = 0 then handleGenesis s index
  else if blk.header.prevHash = none then .error .unknownParent
  else match findHeadByHash s blk.header.prevHash with
    | some (c, i) => .ok (s, c, i)
    | none => do
      let m ← getParentMeta s blk.header.prevHash
      forkFromParentMeta E visit s m

/-! ### The longest chain -/

/-- `maybePromoteLongest` makes the candidate the longest chain unless this holds: it is shorter than
the current one, or as long with a hash that is not smaller. -/
def keepsLongest (candidate current : NamecoinChain) : Prop :=
  candidate.headHeight < current.headHeight ∨
    (candidate.headHeight = current.headHeight ∧ current.headHash ≠ none ∧ candidate.headHash ≠ none ∧
      ¬ bytesLess (elems candidate.headHash) (elems current.headHash))

instance (a b : NamecoinChain) : Decidable (keepsLongest a b) := by
  unfold keepsLongest bytesLess; infer_instance

/-- The overlay of a chain is committed, and the chain is moved to the base. -/
def commitStore (S : Heap) (c : NamecoinChain) : Heap × NamecoinChain :=
  match baseOf S c.store with
  | none => (S, c)
  | some base => (commit S c.store, { c with store := base })

def maybePromoteLongest (s : ChainService) (i : ℕ) (candidate : NamecoinChain) : ChainService :=
  if keepsLongest candidate (getLongestChain s) then s
  else
    let (S, candidate) := commitStore s.stores candidate
    if h : i < s.chains.length then
      ⟨S, s.chains.set i candidate, i, s.orphansByPrev, s.blockIndex, by rw [List.length_set]; exact h⟩
    else s

/-! ### Blocks -/

/-- `handleParentErrorUnlocked`. -/
def handleParentError (s : ChainService) (blk : Block) (e : Err) : Outcome ChainService Block Err :=
  if e = .unknownParent then ⟨storeOrphan s blk, [], none⟩ else ⟨s, [], some e⟩

/-- The errors that are a `ChainFollowError`. -/
def isChainFollow : Err → Bool
  | .chainFollow _ => true
  | _ => false

/-- `handleApplyErrorUnlocked`. -/
def handleApplyError (s : ChainService) (blk : Block) (e : Err) : Outcome ChainService Block Err :=
  if isChainFollow e then ⟨storeOrphan s blk, [], none⟩ else ⟨s, [], some e⟩

/-- The service after a block has been applied to the chain number `i`, which is `origin` now. -/
def attach (s : ChainService) (S : Heap) (origin : NamecoinChain) (i : ℕ) (blk : Block) : ChainService :=
  maybePromoteLongest (registerBlock (setChain s S i origin) i blk) i origin

/-- `processSingleBlockUnlocked`. Whatever `ApplyBlock` returns, it has set a
missing `Hash` of the block. -/
def processSingleBlock (visit : Finset ℕ → List ℕ) (index : ℤ) (s : ChainService) (blk : Block) :
    Outcome ChainService Block Err :=
  if blockKnown s blk.hash blk.header.height then
    let (s, children) := popWaitingChildren s blk.hash
    ⟨s, children, none⟩
  else match ensureChainForParent E visit s index blk with
    | .error e => handleParentError s blk e
    | .ok (s, origin, i) => match origin.applyBlock E s.stores blk with
      | .error e => handleApplyError s (settleHash E blk) e
      | .ok (S, origin) =>
        let blk := settleHash E blk
        let (s, children) := popWaitingChildren (attach s S origin i blk) blk.hash
        ⟨s, children, none⟩

end Namecoin.Service.Defs
