import Namecoin.Chain.Pow
import Namecoin.Chain.Stores
import Namecoin.Lib.Decimal
import Namecoin.State.Strict

/-! # The chain

`NamecoinChain` of `namecoin_chain.go`: validation of a block against the head, `ApplyBlock`, the
replay of stored blocks, `forkUpToHeight` and `LoadNamecoinChain`. The store of a chain is named by its
number in the heap of stores, which the operations take and return. Locks are left out: every caller
that changes a chain holds the lock of the chain service. -/

namespace Namecoin.Chain.Defs

open Lib.Ops Lib.ByteStrings Lib.Decimal Types.Defs Types.TxCodec Types.BlockCodec State.Defs
open State.Strict Chain.Pow Chain.Stores

variable (E : Env)

structure NamecoinChain where
  store : ℕ
  state : NamecoinState
  headHash : Slice UInt8
  headHeight : UInt64
  powSeed : Option ℤ
  powTarget : Option ℤ
  powParams : PowParams
  headTS : Int64

def newNamecoinChain (store : ℕ) : NamecoinChain :=
  ⟨store, newState, none, 0, some (effectiveTarget none), some (effectiveTarget none),
    powParamsFromConfig zeroPoWConfig, 0⟩

def configurePow (cfg : PoWConfig) (c : NamecoinChain) : NamecoinChain :=
  { c with
    powParams := powParamsFromConfig cfg
    powSeed := some (effectiveTarget cfg.target)
    powTarget :=
      if c.powTarget = none ∨ (c.headHash = none ∧ c.headHeight = 0) then
        some (effectiveTarget cfg.target)
      else c.powTarget }

def nextPowTarget (c : NamecoinChain) : Option ℤ := c.powTarget

/-! ### Keys -/

def namecoinBlockPrefix : String := "namecoin:block:"

def namecoinLastBlockKey : String := "namecoin:last_block"

def encodeNamecoinBlockKey (height : UInt64) : String :=
  namecoinBlockPrefix ++ String.ofList (fixedDigits 20 height.toNat)

/-- What follows the prefix of block keys. -/
def blockKeySuffix (key : String) : Option (List Char) :=
  if namecoinBlockPrefix.toList <+: key.toList then
    some (key.toList.drop namecoinBlockPrefix.toList.length)
  else none

def parseNamecoinBlockHeight (key : String) : Except Err UInt64 :=
  match blockKeySuffix key with
  | none => .error (.msg "not a namecoin block key")
  | some [] => .error (.msg ("invalid namecoin block key length " ++ Nat.repr key.utf8ByteSize))
  | some suffix => match parseDigits 0 suffix with
    | none => .error (.msg ("invalid height suffix " ++ String.ofList suffix))
    | some h =>
      if h < 2 ^ 64 then .ok (UInt64.ofNat h)
      else .error (.msg ("invalid height suffix " ++ String.ofList suffix))

/-! ### Validation -/

def ensureNextBlockFollows (currentHeadHeight : UInt64) (currentHeadHash : Slice UInt8) (blk : Block) :
    Except Err Unit :=
  if currentHeadHash = none then do
    failIf (blk.header.height ≠ 0)
      (.chainFollow ("invalid genesis height " ++ Nat.repr blk.header.height.toNat ++ "; expected 0"))
    failIf (elems blk.header.prevHash ≠ []) (.chainFollow "genesis block must have empty prevHash")
  else do
    failIf (blk.header.height ≠ currentHeadHeight + 1)
      (.chainFollow ("invalid height " ++ Nat.repr blk.header.height.toNat ++ "; expected " ++
        Nat.repr (currentHeadHeight + 1).toNat))
    failIf (¬ bytesEqual blk.header.prevHash currentHeadHash) (.chainFollow "prevHash mismatch")

/-- The `Hash` of a block is missing or the one computed from the header. -/
def hashFits (blk : Block) : Prop := elems blk.hash = [] ∨ elems blk.hash = computeHash E blk

instance (blk : Block) : Decidable (hashFits E blk) := by unfold hashFits; infer_instance

/-- The block as `ValidateBlockHeader` leaves it, whatever it returns: a `Hash` that fits is set to the
one computed from the header. -/
def settleHash (blk : Block) : Block :=
  if hashFits E blk then { blk with hash := cloneBytes (some (computeHash E blk)) } else blk

/-- `ValidateBlockHeader`; the block is changed to `settleHash E blk`. -/
def validateBlockHeader (currentHeadHeight : UInt64) (currentHeadHash : Slice UInt8) (blk : Block)
    (target : Option ℤ) : Except Err Unit := do
  failIf (¬ hashFits E blk) (.msg "block hash mismatch: payload hash != computed header hash")
  ensureNextBlockFollows currentHeadHeight currentHeadHash blk
  let computedRoot ← (computeTxRoot E blk.transactions).mapError (.wrap "failed to compute tx root: ")
  failIf (elems blk.header.txRoot ≠ computedRoot) (.msg "txRoot mismatch")
  let validationTarget ← enforceDifficultyTarget blk target
  validateWorkForTarget E blk validationTarget

/-- `ValidateBlock`: the state after the block. -/
def validateBlock (currentHeadHeight : UInt64) (currentHeadHash : Slice UInt8) (blk : Block)
    (target : Option ℤ) (stateSnapshot : NamecoinState) : Except Err NamecoinState := do
  validateBlockHeader E currentHeadHeight currentHeadHash blk target
  match applyBlockStrict E blk stateSnapshot with
  | .ok _ st => .ok st
  | .error e _ => .error e

/-- `NamecoinChain.ApplyBlock`. The head cannot change between the two validations of the header, since
blocks are applied one at a time. -/
def NamecoinChain.applyBlock (S : Heap) (c : NamecoinChain) (blk : Block) :
    Except Err (Heap × NamecoinChain) := do
  let currentHeadHash := cloneBytes c.headHash
  let blockTarget := (decodeDifficulty blk.header.difficulty).or c.powTarget
  let clonedState ← validateBlock E c.headHeight currentHeadHash blk c.powTarget c.state
  let blk := settleHash E blk
  let data ← marshal E blk
  validateBlockHeader E c.headHeight c.headHash blk c.powTarget
  let S := set S c.store (encodeNamecoinBlockKey blk.header.height) data
  let canonical := computeHash E blk
  let S := set S c.store namecoinLastBlockKey canonical
  return (S, { c with
    state := replaceWith c.state clonedState
    headHash := cloneBytes (some canonical)
    headHeight := blk.header.height
    headTS := blk.header.timestamp
    powTarget := nextTarget E c.powParams blockTarget c.headTS blk.header.timestamp })

/-! ### Replay -/

structure LoadedBlock where
  height : UInt64
  raw : Bytes

def decodeLoadedBlock (lb : LoadedBlock) : Except Err Block := do
  let blk ← (unmarshal E lb.raw).mapError (.wrap "cannot unmarshal: ")
  if blk.header.height = 0 then return { blk with header := { blk.header with height := lb.height } }
  failIf (blk.header.height ≠ lb.height) (.msg ("block key height " ++ Nat.repr lb.height.toNat ++
    " != header height " ++ Nat.repr blk.header.height.toNat))
  return blk

/-- `validateBlockOnReplay`: the computed hash. -/
def validateBlockOnReplay (currentHeadHeight : UInt64) (currentHeadHash : Slice UInt8) (blk : Block) :
    Except Err Bytes := do
  failIf (¬ hashFits E blk) (.msg "stored blk.Hash != ComputeHash()")
  ensureNextBlockFollows currentHeadHeight currentHeadHash blk
  let root ← (computeTxRoot E blk.transactions).mapError (.wrap "compute tx root: ")
  failIf (elems blk.header.txRoot ≠ root) (.msg "txRoot mismatch on replay")
  return computeHash E blk

/-- The variables of the loop of `ReplayBlocks`. -/
structure ReplayState where
  state : NamecoinState
  headHash : Slice UInt8
  headHeight : UInt64

/-- One turn of the loop of `ReplayBlocks`: the computed hash of the block and the variables after it. -/
def replayOne (r : ReplayState) (lb : LoadedBlock) : Except Err (Bytes × ReplayState) := do
  let blk ← decodeLoadedBlock E lb
  let canonicalHash ← validateBlockOnReplay E r.headHeight r.headHash blk
  let state ← applyBlock E blk r.state
  return (canonicalHash, ⟨state, cloneBytes (some canonicalHash), blk.header.height⟩)

/-- `ReplayBlocks`: a block that fails is skipped, and the loop stops at the stored head. -/
def replayBlocks (storedHeadHash : Slice UInt8) : List LoadedBlock → ReplayState → ReplayState × Bool
  | [], r => (r, false)
  | lb :: rest, r => match replayOne E r lb with
    | .error _ => replayBlocks storedHeadHash rest r
    | .ok (canonicalHash, r') =>
      if storedHeadHash ≠ none ∧ bytesEqual (some canonicalHash) storedHeadHash then (r', true)
      else replayBlocks storedHeadHash rest r'

/-- The variables `ReplayBlocks` starts from. -/
def replayStart : ReplayState := ⟨newState, none, 0⟩

/-- The target and the time of the last block after the loop of `rebuildPowStateForFork`. -/
def forkPowLoop (headHeight : UInt64) (params : PowParams) :
    List LoadedBlock → Option ℤ → Int64 → Option ℤ × Int64
  | [], powTarget, prevTS => (powTarget, prevTS)
  | lb :: rest, powTarget, prevTS =>
    if headHeight < lb.height then (powTarget, prevTS)
    else match decodeLoadedBlock E lb with
      | .error _ => forkPowLoop headHeight params rest powTarget prevTS
      | .ok blk =>
        let blkTarget := (decodeDifficulty blk.header.difficulty).or powTarget
        forkPowLoop headHeight params rest (nextTarget E params blkTarget prevTS blk.header.timestamp)
          blk.header.timestamp

def rebuildPowStateForFork (blocks : List LoadedBlock) (headHeight : UInt64) (seed : Option ℤ)
    (params : PowParams) : Option ℤ × Int64 :=
  let (powTarget, prevTS) := forkPowLoop E headHeight params blocks (some (effectiveTarget seed)) 0
  (some (powTarget.getD (effectiveTarget seed)), prevTS)

def blockAtHeight (S : Heap) (c : NamecoinChain) (height : UInt64) : Except Err Block :=
  match get S c.store (encodeNamecoinBlockKey height) with
  | none => .error (.msg ("no block at height " ++ Nat.repr height.toNat))
  | some raw => decodeLoadedBlock E ⟨height, raw⟩

/-- The loop of `forkUpToHeight` that reads the blocks of the given heights. -/
def readBlocks (S : Heap) (store : ℕ) : List ℕ → Except Err (List LoadedBlock)
  | [] => .ok []
  | h :: rest => match get S store (encodeNamecoinBlockKey (UInt64.ofNat h)) with
    | none => .error (.msg ("missing block at height " ++ Nat.repr h))
    | some raw => do
      let blocks ← readBlocks S store rest
      return ⟨UInt64.ofNat h, raw⟩ :: blocks

/-- `forkUpToHeight`, with the store the fork is read from and kept in. -/
def NamecoinChain.forkUpToHeight (S : Heap) (c : NamecoinChain) (height : UInt64) (forkStore : ℕ) :
    Except Err NamecoinChain := do
  failIf (c.headHeight < height) (.msg ("cannot fork to height " ++ Nat.repr height.toNat ++
    " above head " ++ Nat.repr c.headHeight.toNat))
  let blocks ← readBlocks S forkStore (List.range (height.toNat + 1))
  let (r, _) := replayBlocks E none blocks replayStart
  failIf (r.headHeight ≠ height) (.msg ("replay stopped at height " ++ Nat.repr r.headHeight.toNat ++
    " (expected " ++ Nat.repr height.toNat ++ ")"))
  let (rebuiltTarget, headTS) := rebuildPowStateForFork E blocks height c.powSeed c.powParams
  return ⟨forkStore, r.state, r.headHash, r.headHeight, c.powSeed, rebuiltTarget, c.powParams, headTS⟩

/-! ### Loading -/

/-- The loop of `rebuildPowState`; `prevTS` is nil before the first block. -/
def loadPowLoop (headHeight : UInt64) (params : PowParams) :
    List LoadedBlock → Option ℤ → Option Int64 → Option ℤ × Option Int64
  | [], powTarget, prevTS => (powTarget, prevTS)
  | lb :: rest, powTarget, prevTS =>
    if headHeight < lb.height then (powTarget, prevTS)
    else match decodeLoadedBlock E lb with
      | .error _ => loadPowLoop headHeight params rest powTarget prevTS
      | .ok blk =>
        let powTarget := (decodeDifficulty blk.header.difficulty).or powTarget
        let powTarget := match prevTS with
          | some ts =>
            if params.dynamic then
              some (adjustDifficulty E powTarget ((blk.header.timestamp - ts) * second)
                params.targetBlockTime params.maxAdjustUp params.maxAdjustDown)
            else powTarget
          | none => powTarget
        loadPowLoop headHeight params rest powTarget (some blk.header.timestamp)

/-- The blocks `LoadNamecoinChain` scans, in the order of their heights. -/
def scanBlocks (S : Heap) (store : ℕ) : List LoadedBlock :=
  ((entries S store).filterMap fun e =>
    match parseNamecoinBlockHeight e.1 with
    | .ok h => some ⟨h, e.2⟩
    | .error _ => none).insertionSort fun a b => a.height ≤ b.height

/-- `LoadNamecoinChain` after the scan: the stores after the head has been written, and the chain. -/
def loadScanned (S : Heap) (store : ℕ) (blocks : List LoadedBlock) : Heap × NamecoinChain :=
  let storedHeadHash := get S store namecoinLastBlockKey
  match blocks with
  | [] => (S, newNamecoinChain store)
  | first :: rest =>
    let blocks := first :: rest
    let (r, _) := replayBlocks E storedHeadHash blocks replayStart
    let S := match r.headHash with
      | none => S
      | some h => set S store namecoinLastBlockKey h
    let params := powParamsFromConfig zeroPoWConfig
    let (powTarget, headTS) := loadPowLoop E r.headHeight params blocks (some (effectiveTarget none)) none
    let powSeed := match decodeLoadedBlock E first with
      | .error _ => some (effectiveTarget none)
      | .ok genesis => some ((decodeDifficulty genesis.header.difficulty).getD (effectiveTarget none))
    (S, ⟨store, r.state, r.headHash, r.headHeight, powSeed, some (powTarget.getD (effectiveTarget none)),
      params, headTS.getD 0⟩)

def loadNamecoinChain (S : Heap) (store : ℕ) : Heap × NamecoinChain :=
  loadScanned E S store (scanBlocks S store)

end Namecoin.Chain.Defs
