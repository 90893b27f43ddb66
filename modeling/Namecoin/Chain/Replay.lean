import Namecoin.Chain.Build

/-! # Replay

A block that `applyBlockStrict` accepts has the same effect when it is replayed without validation,
also after it has been stored and read back (`applyBlock_of_strict`, `replayOne_stored`). `Replayed`
are the heads that a sequence of blocks leads to, each on top of the one before: the heads of live
chains (`ReachedChain.replayed`) and what the loop over stored blocks ends with
(`Replayed.replayBlocks`). -/

namespace Namecoin.Chain.Replay

open Lib.Ops Lib.ByteStrings Types.Defs Types.TxCodec Types.BlockCodec State.Defs State.Commands
open State.Strict State.Effects Chain.Stores Chain.Defs Chain.Apply

variable {E : Env}

/-! ### Without validation -/

theorem payloadValue_reloaded (m : RawMessage) :
    payloadValue (RawMessage.reloaded m) = payloadValue m := by
  cases m <;> rfl

theorem buildTransactionID_reloaded (tx : Tx) :
    buildTransactionID E (Tx.reloaded tx) = buildTransactionID E tx := by
  unfold buildTransactionID serializeTransaction Tx.reloaded
  rw [payloadValue_reloaded]
  rfl

theorem resolveCommand_reloaded {tx : Tx} {cmd : NamecoinCommand}
    (h : resolveCommand tx.type tx.payload = .ok cmd) :
    resolveCommand (Tx.reloaded tx).type (Tx.reloaded tx).payload = .ok cmd := by
  unfold Tx.reloaded RawMessage.reloaded
  cases hp : tx.payload with
  | text t => rw [hp] at h; exact h
  | invalid => rw [hp] at h; exact h
  | nil =>
    rw [hp] at h
    unfold resolveCommand at h ⊢
    dsimp only
    split_ifs at h ⊢
    · cases h
    · cases h
    · cases h
    · exact h

theorem applyCommands_reloaded {txID : String} {tx : Tx} {s s₁ : NamecoinState}
    (h : applyCommands E txID tx s = .ok () s₁) :
    applyCommands E txID (Tx.reloaded tx) s = .ok () s₁ := by
  obtain ⟨cmd, -, hcmd, -⟩ := applyCommands_ok_iff.mp h
  rw [applyCommands_congr txID ((resolveCommand_reloaded hcmd).trans hcmd.symm) rfl rfl rfl rfl]
  exact h

/-- One transaction: the effects of a fresh step, or nothing. -/
theorem applyTx_of_applied {txID : String} {tx : Tx} {s : NamecoinState} (h : txID ∈ s.txMap) :
    applyTx E txID tx s = .ok () s := by
  unfold applyTx
  rw [get_bind_run]
  exact if_pos h ▸ rfl

theorem applyTx_of_fresh {txID : String} {tx : Tx} {s s₁ : NamecoinState} (h : txID ∉ s.txMap)
    (ha : applyCommands E txID tx s = .ok () s₁) :
    applyTx E txID tx s = .ok () (markAsApplied txID s₁) := by
  obtain ⟨u, c, h1, h2⟩ := bind_ok_iff.mp ha
  have hrest : (applyCommandUTXO txID tx >>= fun _ => applyCommandState E tx >>= fun _ =>
      modify (markAsApplied txID)) s = .ok () (markAsApplied txID s₁) :=
    bind_ok_iff.mpr ⟨u, c, h1, bind_ok_iff.mpr ⟨(), s₁, h2, rfl⟩⟩
  unfold applyTx
  rw [get_bind_run]
  exact (congrFun (if_neg h) s).trans hrest

/-- A way to write transactions that changes neither their IDs nor their effects. -/
structure Neutral (E : Env) (f : Tx → Tx) : Prop where
  id : ∀ tx, buildTransactionID E (f tx) = buildTransactionID E tx
  effect : ∀ {tx txID s s₁}, applyCommands E txID tx s = .ok () s₁ →
    applyCommands E txID (f tx) s = .ok () s₁

theorem neutral_id (E : Env) : Neutral E id := ⟨fun _ => rfl, fun h => h⟩

theorem neutral_reloaded (E : Env) : Neutral E Tx.reloaded :=
  ⟨buildTransactionID_reloaded, applyCommands_reloaded⟩

theorem forList_inPlace {f : Tx → Tx} (hf : Neutral E f) {txs : List Tx} {s s' : NamecoinState}
    (h : StrictRun E txs s s') : forList (applyTxInPlace E) (txs.map f) s = .ok () s' := by
  induction h with
  | nil s => rfl
  | @skip tx txs txID s s' hb ha _ ih =>
    rw [List.map_cons, forList]
    refine bind_ok_iff.mpr ⟨(), s, ?_, ih⟩
    unfold applyTxInPlace
    rw [hf.id, hb]
    exact applyTx_of_applied ha
  | @fresh tx txs txID s s₁ s' hb ha hfresh _ ih =>
    obtain ⟨-, s₀, heff, rfl⟩ := hfresh
    rw [List.map_cons, forList]
    refine bind_ok_iff.mpr ⟨(), _, ?_, ih⟩
    unfold applyTxInPlace
    rw [hf.id, hb]
    exact applyTx_of_fresh ha (hf.effect heff)

/-- **A strict block replays** to the same state. -/
theorem applyBlock_of_strict {f : Tx → Tx} (hf : Neutral E f) {blk b : Block} {s st : NamecoinState}
    (h : applyBlockStrict E blk s = .ok () st) (hh : b.header = blk.header)
    (ht : b.transactions = blk.transactions.map f) : applyBlock E b s = .ok (replaceWith s st) := by
  have hrun := forList_inPlace hf (applyBlockStrict_ok_iff.mp h)
  have hplace : applyBlockInPlace E b s = .ok () st := by
    unfold applyBlockInPlace
    rw [modify_bind_run, modify_bind_run, hh, ht]
    exact hrun
  unfold applyBlock
  rw [hplace]

/-! ### Blocks one on top of the other -/

/-- The heads reached by applying blocks to the empty state, each on top of the one before. -/
inductive Replayed (E : Env) : List Block → ReplayState → Prop
  | start : Replayed E [] replayStart
  | step {blks : List Block} {r : ReplayState} {blk : Block} {state : NamecoinState} : Replayed E blks r →
    ensureNextBlockFollows r.headHeight r.headHash blk = .ok () → applyBlock E blk r.state = .ok state →
    Replayed E (blks ++ [blk]) ⟨state, some (computeHash E blk), blk.header.height⟩

/-- The head of a chain. -/
def headOf (c : NamecoinChain) : ReplayState := ⟨c.state, c.headHash, c.headHeight⟩

theorem Replayed.applyBlock {S S' : Heap} {c c' : NamecoinChain} {blk : Block} {blks : List Block}
    (h : Replayed E blks (headOf c)) (hh : HeadOK c.headHash) (ha : c.applyBlock E S blk = .ok (S', c')) :
    Replayed E (blks ++ [blk]) (headOf c') := by
  obtain ⟨st, data, hv, hst, -, -, rfl⟩ := (applyBlock_ok_iff hh).mp ha
  have hnext := (validateBlockHeader_ok_iff.mp hv).2.1
  exact .step h hnext (applyBlock_of_strict (neutral_id E) hst rfl (List.map_id _).symm)

theorem ReachedChain.replayed {c : NamecoinChain} (h : ReachedChain E c) :
    ∃ blks, Replayed E blks (headOf c) := by
  induction h with
  | empty store cfg => exact ⟨[], .start⟩
  | step hr ha ih =>
    obtain ⟨blks, hb⟩ := ih
    exact ⟨_, hb.applyBlock hr.headOK ha⟩

/-! ### The loop over stored blocks -/

theorem validateBlockOnReplay_ok_iff {height : UInt64} {hash : Slice UInt8} {blk : Block}
    {canonical : Bytes} :
    validateBlockOnReplay E height hash blk = .ok canonical ↔ hashFits E blk ∧
      ensureNextBlockFollows height hash blk = .ok () ∧
      computeTxRoot E blk.transactions = .ok (elems blk.header.txRoot) ∧
      canonical = computeHash E blk := by
  unfold validateBlockOnReplay
  simp only [failIf_ok_iff, not_not, except_bind_ok_iff, mapError_ok_iff]
  constructor
  · rintro ⟨⟨⟩, h1, ⟨⟩, h2, root, h3, ⟨⟩, rfl, h4⟩
    exact ⟨h1, h2, h3, (Except.ok.inj h4).symm⟩
  · rintro ⟨h1, h2, h3, rfl⟩
    exact ⟨(), h1, (), h2, _, h3, (), rfl, rfl⟩

/-- **One stored block**: it is decoded, fits on the head and applies. -/
theorem replayOne_ok_iff {r r' : ReplayState} {lb : LoadedBlock} {hash : Bytes} :
    replayOne E r lb = .ok (hash, r') ↔ ∃ blk state, decodeLoadedBlock E lb = .ok blk ∧ hashFits E blk ∧
      ensureNextBlockFollows r.headHeight r.headHash blk = .ok () ∧
      computeTxRoot E blk.transactions = .ok (elems blk.header.txRoot) ∧
      applyBlock E blk r.state = .ok state ∧ hash = computeHash E blk ∧
      r' = ⟨state, some (computeHash E blk), blk.header.height⟩ := by
  have hclone : ∀ blk, cloneBytes (some (computeHash E blk)) = some (computeHash E blk) := fun blk =>
    cloneBytes_some (E.sha256_ne_nil _)
  unfold replayOne
  simp only [except_bind_ok_iff, validateBlockOnReplay_ok_iff]
  constructor
  · rintro ⟨blk, hd, hash', ⟨h1, h2, h3, rfl⟩, state, ha, h⟩
    cases h
    exact ⟨blk, state, hd, h1, h2, h3, ha, rfl, by rw [hclone]⟩
  · rintro ⟨blk, state, hd, h1, h2, h3, ha, rfl, rfl⟩
    refine ⟨blk, hd, _, ⟨h1, h2, h3, rfl⟩, state, ha, ?_⟩
    rw [hclone]
    rfl

theorem Replayed.replayOne {blks : List Block} {r r' : ReplayState} {lb : LoadedBlock} {hash : Bytes}
    (h : Replayed E blks r) (hr : replayOne E r lb = .ok (hash, r')) :
    ∃ blk, Replayed E (blks ++ [blk]) r' := by
  obtain ⟨blk, state, -, -, hnext, -, ha, -, rfl⟩ := replayOne_ok_iff.mp hr
  exact ⟨blk, .step h hnext ha⟩

/-- **The loop of `ReplayBlocks`** ends with the head of some blocks, whatever is stored. -/
theorem Replayed.replayBlocks {stored : Slice UInt8} : ∀ {lbs : List LoadedBlock} {blks : List Block}
    {r : ReplayState}, Replayed E blks r → ∃ blks', Replayed E blks' (replayBlocks E stored lbs r).1
  | [], blks, r, h => ⟨blks, h⟩
  | lb :: rest, blks, r, h => by
    rw [Defs.replayBlocks]
    cases hr : Defs.replayOne E r lb with
    | error e => exact Replayed.replayBlocks h
    | ok p =>
      obtain ⟨hash, r'⟩ := p
      obtain ⟨blk, h'⟩ := h.replayOne hr
      dsimp only
      split_ifs
      · exact ⟨_, h'⟩
      · exact Replayed.replayBlocks h'

/-- The chain that a fork leads to after a replay that ended with `r`. -/
def forkOf (E : Env) (c : NamecoinChain) (store : ℕ) (lbs : List LoadedBlock) (r : ReplayState) :
    NamecoinChain :=
  let pow := rebuildPowStateForFork E lbs r.headHeight c.powSeed c.powParams
  ⟨store, r.state, r.headHash, r.headHeight, c.powSeed, pow.1, c.powParams, pow.2⟩

/-- **`forkUpToHeight`**: the blocks are there, and their replay ends at the height. -/
theorem forkUpToHeight_ok_iff {S : Heap} {c f : NamecoinChain} {height : UInt64} {store : ℕ} :
    c.forkUpToHeight E S height store = .ok f ↔ height ≤ c.headHeight ∧
      ∃ lbs, readBlocks S store (List.range (height.toNat + 1)) = .ok lbs ∧
        (replayBlocks E none lbs replayStart).1.headHeight = height ∧
        f = forkOf E c store lbs (replayBlocks E none lbs replayStart).1 := by
  unfold NamecoinChain.forkUpToHeight forkOf
  simp only [except_bind_ok_iff, failIf_ok_iff, not_not, UInt64.not_lt]
  constructor
  · rintro ⟨⟨⟩, h1, lbs, h2, ⟨⟩, h3, h4⟩
    cases h4
    exact ⟨h1, lbs, h2, h3, by rw [h3]⟩
  · rintro ⟨h1, lbs, h2, h3, rfl⟩
    refine ⟨(), h1, lbs, h2, (), h3, ?_⟩
    rw [h3]
    rfl

end Namecoin.Chain.Replay
