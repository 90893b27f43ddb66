import Namecoin.Chain.Defs
import Namecoin.State.Fresh

/-! # Applying blocks to a chain

* `applyBlock_ok_iff`: what a successful `ApplyBlock` has checked and what it changes;
* `ReachedChain`: the chains reached from an empty one by successful `ApplyBlock` calls; their states are
  well formed (`ReachedChain.wellFormed`). -/

namespace Namecoin.Chain.Apply

open Lib.Ops Lib.ByteStrings Types.Defs Types.TxCodec Types.BlockCodec State.Defs State.Strict
open State.Effects State.Invariant State.Fresh Chain.Pow Chain.Stores Chain.Defs

variable {E : Env}
variable {blk : Block} {c c' : NamecoinChain} {S S' : Heap}

/-! ### The hash of a block -/

@[simp] theorem settleHash_header (blk : Block) : (settleHash E blk).header = blk.header := by
  unfold settleHash; split_ifs <;> rfl

@[simp] theorem settleHash_transactions (blk : Block) :
    (settleHash E blk).transactions = blk.transactions := by
  unfold settleHash; split_ifs <;> rfl

@[simp] theorem computeHash_settleHash (blk : Block) :
    computeHash E (settleHash E blk) = computeHash E blk := by
  unfold computeHash; rw [settleHash_header]

theorem settleHash_hash (h : hashFits E blk) :
    (settleHash E blk).hash = some (computeHash E blk) := by
  unfold settleHash
  rw [if_pos h]
  exact cloneBytes_some (E.sha256_ne_nil _)

theorem hashFits_settleHash (h : hashFits E blk) : hashFits E (settleHash E blk) := by
  right
  rw [settleHash_hash h, computeHash_settleHash]
  rfl

/-! ### Validation -/

theorem ensureNextBlockFollows_ok_iff {height : UInt64} {hash : Slice UInt8} {u : Unit} :
    ensureNextBlockFollows height hash blk = .ok u ↔
      if hash = none then blk.header.height = 0 ∧ elems blk.header.prevHash = []
      else blk.header.height = height + 1 ∧ bytesEqual blk.header.prevHash hash := by
  unfold ensureNextBlockFollows
  split_ifs <;> simp only [except_seq_ok_iff, failIf_ok_iff, not_not]

theorem validateBlockHeader_ok_iff {height : UInt64} {hash : Slice UInt8} {target : Option ℤ}
    {u : Unit} : validateBlockHeader E height hash blk target = .ok u ↔ hashFits E blk ∧
      ensureNextBlockFollows height hash blk = .ok () ∧
      computeTxRoot E blk.transactions = .ok (elems blk.header.txRoot) ∧
      ∃ t, enforceDifficultyTarget blk target = .ok t ∧ validateWorkForTarget E blk t = .ok u := by
  unfold validateBlockHeader
  simp only [failIf_ok_iff, not_not, except_bind_ok_iff, mapError_ok_iff]
  constructor
  · rintro ⟨⟨⟩, h1, ⟨⟩, h2, root, h3, ⟨⟩, rfl, h4⟩
    exact ⟨h1, h2, h3, h4⟩
  · rintro ⟨h1, h2, h3, h4⟩
    exact ⟨(), h1, (), h2, _, h3, (), rfl, h4⟩

theorem ensureNextBlockFollows_congr {a b : Block} (h : a.header = b.header) (height : UInt64)
    (hash : Slice UInt8) :
    ensureNextBlockFollows height hash a = ensureNextBlockFollows height hash b := by
  unfold ensureNextBlockFollows
  rw [h]

theorem enforceDifficultyTarget_congr {a b : Block} (h : a.header = b.header) (target : Option ℤ) :
    enforceDifficultyTarget a target = enforceDifficultyTarget b target := by
  unfold enforceDifficultyTarget
  rw [h]

@[simp] theorem ensureNextBlockFollows_settleHash (height : UInt64) (hash : Slice UInt8) (blk : Block) :
    ensureNextBlockFollows height hash (settleHash E blk) = ensureNextBlockFollows height hash blk :=
  ensureNextBlockFollows_congr (settleHash_header blk) height hash

@[simp] theorem enforceDifficultyTarget_settleHash (blk : Block) (target : Option ℤ) :
    enforceDifficultyTarget (settleHash E blk) target = enforceDifficultyTarget blk target :=
  enforceDifficultyTarget_congr (settleHash_header blk) target

@[simp] theorem validateWorkForTarget_settleHash (blk : Block) (target : Option ℤ) :
    validateWorkForTarget E (settleHash E blk) target = validateWorkForTarget E blk target := by
  unfold validateWorkForTarget isBlockComplexityValid
  simp only [computeHash_settleHash]

theorem validateBlockHeader_settleHash {height : UInt64} {hash : Slice UInt8}
    {target : Option ℤ} (h : validateBlockHeader E height hash blk target = .ok ()) :
    validateBlockHeader E height hash (settleHash E blk) target = .ok () := by
  obtain ⟨h1, hrest⟩ := validateBlockHeader_ok_iff.mp h
  exact validateBlockHeader_ok_iff.mpr ⟨hashFits_settleHash h1, by simpa using hrest⟩

theorem validateBlock_ok_iff {height : UInt64} {hash : Slice UInt8} {target : Option ℤ}
    {st st' : NamecoinState} : validateBlock E height hash blk target st = .ok st' ↔
      validateBlockHeader E height hash blk target = .ok () ∧ applyBlockStrict E blk st = .ok () st' := by
  unfold validateBlock
  rw [except_seq_ok_iff]
  refine and_congr_right fun _ => ?_
  cases applyBlockStrict E blk st with
  | ok u s => simp
  | error e s => simp

/-! ### `ApplyBlock` -/

/-- The stores after a block has been written to one of them. -/
def persist (E : Env) (S : Heap) (store : ℕ) (blk : Block) (data : Bytes) : Heap :=
  set (set S store (encodeNamecoinBlockKey blk.header.height) data) store namecoinLastBlockKey
    (computeHash E blk)

/-- The chain after a block that leads to the state `st`. -/
def chainAfter (E : Env) (c : NamecoinChain) (blk : Block) (st : NamecoinState) : NamecoinChain :=
  { c with
    state := replaceWith c.state st
    headHash := some (computeHash E blk)
    headHeight := blk.header.height
    headTS := blk.header.timestamp
    powTarget := nextTarget E c.powParams ((decodeDifficulty blk.header.difficulty).or c.powTarget)
      c.headTS blk.header.timestamp }

/-- A head hash as chains keep it: nil or not empty. -/
def HeadOK (h : Slice UInt8) : Prop := cloneBytes h = h

/-- **`ApplyBlock`**: the header checks pass, the block applies strictly, the block is written to
the store of the chain. -/
theorem applyBlock_ok_iff (hh : HeadOK c.headHash) :
    c.applyBlock E S blk = .ok (S', c') ↔ ∃ st data,
      validateBlockHeader E c.headHeight c.headHash blk c.powTarget = .ok () ∧
      applyBlockStrict E blk c.state = .ok () st ∧ marshal E (settleHash E blk) = .ok data ∧
      S' = persist E S c.store blk data ∧ c' = chainAfter E c blk st := by
  unfold NamecoinChain.applyBlock
  rw [hh]
  simp only [except_bind_ok_iff, validateBlock_ok_iff]
  have hclone : cloneBytes (some (computeHash E blk)) = some (computeHash E blk) :=
    cloneBytes_some (E.sha256_ne_nil _)
  constructor
  · rintro ⟨st, ⟨h1, h2⟩, data, h3, -, -, h5⟩
    cases h5
    refine ⟨st, data, h1, h2, h3, ?_, ?_⟩
    · simp only [settleHash_header, computeHash_settleHash]; rfl
    · simp only [settleHash_header, computeHash_settleHash, hclone]; rfl
  · rintro ⟨st, data, h1, h2, h3, rfl, rfl⟩
    refine ⟨st, ⟨h1, h2⟩, data, h3, (), validateBlockHeader_settleHash h1, ?_⟩
    simp only [settleHash_header, computeHash_settleHash, hclone]
    rfl

/-! ### Reached chains -/

/-- The chains reached from an empty chain by successful `ApplyBlock` calls. -/
inductive ReachedChain (E : Env) : NamecoinChain → Prop
  | empty (store : ℕ) (cfg : PoWConfig) : ReachedChain E (configurePow cfg (newNamecoinChain store))
  | step {S S' : Heap} {c c' : NamecoinChain} {blk : Block} :
    ReachedChain E c → c.applyBlock E S blk = .ok (S', c') → ReachedChain E c'

/-- The chains reached from an empty chain by accepted blocks that all satisfy `P`. -/
inductive ReachedBy (E : Env) (P : Block → Prop) : NamecoinChain → Prop
  | empty (store : ℕ) (cfg : PoWConfig) : ReachedBy E P (configurePow cfg (newNamecoinChain store))
  | step {S S' : Heap} {c c' : NamecoinChain} {blk : Block} :
    ReachedBy E P c → P blk → c.applyBlock E S blk = .ok (S', c') → ReachedBy E P c'

theorem ReachedBy.reached {P : Block → Prop} {c : NamecoinChain} (h : ReachedBy E P c) :
    ReachedChain E c := by
  induction h with
  | empty store cfg => exact .empty store cfg
  | step _ _ ha ih => exact .step ih ha

theorem ReachedBy.mono {P Q : Block → Prop} (hPQ : ∀ b, P b → Q b) {c : NamecoinChain}
    (h : ReachedBy E P c) :
    ReachedBy E Q c := by
  induction h with
  | empty store cfg => exact .empty store cfg
  | step _ hP ha ih => exact .step ih (hPQ _ hP) ha

theorem HeadOK.after (c : NamecoinChain) (blk : Block) (st : NamecoinState) :
    HeadOK (chainAfter E c blk st).headHash := cloneBytes_some (E.sha256_ne_nil _)

theorem ReachedChain.headOK {c : NamecoinChain} (h : ReachedChain E c) : HeadOK c.headHash := by
  induction h with
  | empty => rfl
  | step _ ha ih =>
    obtain ⟨st, data, -, -, -, -, rfl⟩ := (applyBlock_ok_iff ih).mp ha
    exact HeadOK.after _ _ _

theorem ReachedChain.applied (h : ReachedChain E c) (ha : c.applyBlock E S blk = .ok (S', c')) : ∃ st,
      validateBlockHeader E c.headHeight c.headHash blk c.powTarget = .ok () ∧
      applyBlockStrict E blk c.state = .ok () st ∧ c'.state = replaceWith c.state st := by
  obtain ⟨st, data, h1, h2, -, -, rfl⟩ := (applyBlock_ok_iff h.headOK).mp ha
  exact ⟨st, h1, h2, rfl⟩

/-- **The state of a chain** is well formed, and no name is marked as claimed in it. -/
theorem ReachedChain.wellFormed {c : NamecoinChain} (h : ReachedChain E c) :
    WellFormed c.state ∧ c.state.claimedDomains = ∅ := by
  induction h with
  | empty => exact ⟨wellFormed_newState, rfl⟩
  | step hr ha ih =>
    obtain ⟨st, -, h2, hst⟩ := hr.applied ha
    have hw := ih.1.applyBlockStrict h2
    rw [hst]
    exact ⟨⟨hw.named, hw.coins, hw.commits, hw.ids, hw.buckets, hw.ttl⟩, ih.2⟩

/-! ### The transactions of a block that take effect -/

theorem pruned_rest (h : UInt64) (st : NamecoinState) :
    (atHeight h st).utxoMap = st.utxoMap ∧ (atHeight h st).txMap = st.txMap := by
  unfold atHeight
  rw [(pruneExpired_pruned h (setHeight h st)).rest]
  exact ⟨rfl, rfl⟩

/-- **The IDs that a chain has applied** after a block: those from before, and those of the
block, which all have one. -/
theorem applyBlock_txMap (hh : HeadOK c.headHash)
    (h : c.applyBlock E S blk = .ok (S', c')) :
    (∀ tx ∈ blk.transactions, ∃ id, buildTransactionID E tx = .ok id) ∧
      ∀ id, id ∈ c'.state.txMap ↔ id ∈ c.state.txMap ∨
      ∃ tx ∈ blk.transactions, buildTransactionID E tx = .ok id := by
  obtain ⟨st, data, -, hs, -, -, rfl⟩ := (applyBlock_ok_iff hh).mp h
  have hrun := applyBlockStrict_ok_iff.mp hs
  refine ⟨strictRun_named hrun, fun id => (strictRun_txMap hrun id).trans ?_⟩
  rw [(pruned_rest blk.header.height c.state).2]

theorem atHeight_currentHeight (h : UInt64) (st : NamecoinState) : (atHeight h st).currentHeight = h := by
  unfold atHeight
  rw [(pruneExpired_pruned h (setHeight h st)).rest]
  rfl

/-- The transactions of the block that the chain has not applied. -/
def freshOf (E : Env) (c : NamecoinChain) (blk : Block) : List (String × Tx) :=
  freshTxs E c.state.txMap blk.transactions

theorem ReachedChain.freshRun (h : ReachedChain E c) (ha : c.applyBlock E S blk = .ok (S', c')) : ∃ st,
      FreshRun E (freshOf E c blk) (atHeight blk.header.height c.state) st ∧
      c'.state = replaceWith c.state st := by
  obtain ⟨st, -, hst, hc'⟩ := h.applied ha
  have hrun := StrictRun.freshRun (applyBlockStrict_ok_iff.mp hst)
  rw [(pruned_rest blk.header.height c.state).2] at hrun
  exact ⟨st, hrun, hc'⟩

end Namecoin.Chain.Apply
