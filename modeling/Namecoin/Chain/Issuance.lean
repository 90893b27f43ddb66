import Namecoin.Chain.Build
import Namecoin.State.Supply
import Namecoin.Types.SampleEnv

/-! # Issuance

How an accepted block changes the sum of all coins (`issuance_iff`): by the rewards it pays
less what its other transactions burn. Nothing bounds the rewards, neither their number nor
their amount (`reward_accepted`), so the fixed block reward of 1 is a habit of `AssembleBlock`
and no rule of the chain. -/

namespace Namecoin.Chain.Issuance

open Lib.ByteStrings Types.Defs Types.TxCodec Types.BlockCodec Types.SampleEnv State.Defs State.Utxo
open State.Strict State.Effects State.Fresh State.Supply State.SpendPlan Chain.Pow Chain.Stores
open Chain.Defs Chain.Apply Chain.Build

variable {E : Env}

theorem supply_block {S S' : Heap} {c c' : NamecoinChain} {blk : Block} (hc : ReachedChain E c)
    (ha : c.applyBlock E S blk = .ok (S', c')) :
    supply c'.state + burnedOf c.state (freshOf E c blk) (freshOf E c blk) =
      supply c.state + rewardsOf (freshOf E c blk) := by
  obtain ⟨st, hrun, hc'⟩ := hc.freshRun ha
  obtain ⟨hutxo, -⟩ := pruned_rest blk.header.height c.state
  have hval : Valued c.state (freshOf E c blk) (atHeight blk.header.height c.state) := by
    intro addr t u hu
    unfold account at hu
    rw [hutxo] at hu
    exact valued_start c.state _ addr t u hu
  have hmove := supply_freshRun hc.wellFormed.1 (freshTxs_nodup _ _)
    (fun e he => (freshTxs_build he).2.2) hrun (fun _ h => h) hval
  have h0 : supply (atHeight blk.header.height c.state) = supply c.state := by unfold supply; rw [hutxo]
  rw [hc', ← h0]
  exact hmove

/-- **Issuance.** An accepted block adds at most 1 to the supply exactly when its rewards pay at most 1
more than its other transactions burn. -/
theorem issuance_iff {S S' : Heap} {c c' : NamecoinChain} {blk : Block} (hc : ReachedChain E c)
    (ha : c.applyBlock E S blk = .ok (S', c')) :
    supply c'.state ≤ supply c.state + 1 ↔
      rewardsOf (freshOf E c blk) ≤ burnedOf c.state (freshOf E c blk) (freshOf E c blk) + 1 := by
  have := supply_block hc ha
  omega

/-! ### A block that pays 2 -/

theorem reward_accepted (E : Env) (amount : UInt64) :
    ∃ (c c' : NamecoinChain) (S S' : Heap) (blk : Block),
    ReachedChain E c ∧ c.applyBlock E S blk = .ok (S', c') ∧
      supply c'.state = supply c.state + amount.toNat := by
  have hpay : (rewardTx "miner" amount).payload ≠ .invalid := by simp [rewardTx]
  obtain ⟨txID, hid⟩ := buildTransactionID_ok (E := E) hpay
  let N : ℤ := toNatBE (computeHash E (blockOn E (newNamecoinChain 0) [rewardTx "miner" amount] 0))
  have hstep : FreshStep E txID (rewardTx "miner" amount) (atHeight 0 newState) _ :=
    freshStep_reward rfl (.inl rfl) (by simp [rewardTx]) (by
      unfold account
      rw [(pruned_rest 0 newState).1]
      exact Finmap.notMem_empty)
  have hrun : StrictRun E [rewardTx "miner" amount] (atHeight 0 newState) _ :=
    .fresh hid (by rw [(pruned_rest 0 newState).2]; simp [newState]) hstep (.nil _)
  have hwork : (toNatBE (computeHash E (blockOn E (emptyChain N 0) [rewardTx "miner" amount] 0)) : ℤ) ≤
      effectiveTarget (emptyChain N 0).powTarget := le_refl N
  have hc : ReachedChain E (emptyChain N 0) := .empty 0 _
  obtain ⟨data, -, happ⟩ := applyBlock_blockOn (S := [.mem ∅]) hc.headOK (by simp [rewardTx]) hrun hwork
  refine ⟨_, _, _, _, _, hc, happ, ?_⟩
  have hR : isReward (rewardTx "miner" amount) := rfl
  have hsup := supply_freshStep_reward hR hstep
  have h0 : supply (atHeight 0 newState) = supply newState := by
    unfold supply; rw [(pruned_rest 0 newState).1]
  have hpaid : outputSum (payouts (rewardTx "miner" amount) .reward) = amount.toNat := by
    simp [rewardTx, payouts, outputSum]
  rw [h0, hpaid] at hsup
  exact hsup

/-- A block that issues 2 coins is accepted. -/
theorem double_reward_accepted : ¬ ∀ (E : Env) (c c' : NamecoinChain) (S S' : Heap) (blk : Block),
    ReachedChain E c → c.applyBlock E S blk = .ok (S', c') → supply c'.state ≤ supply c.state + 1 := by
  intro h
  obtain ⟨c, c', S, S', blk, hc, ha, hs⟩ := reward_accepted plainEnv 2
  have := h _ c c' S S' blk hc ha
  rw [hs] at this
  simp at this

/-- A block that issues one coin: its rewards pay at most 1 more than is burned. -/
theorem single_reward_issues_one : ∃ (E : Env) (c c' : NamecoinChain) (S S' : Heap) (blk : Block),
    ReachedChain E c ∧ c.applyBlock E S blk = .ok (S', c') ∧ supply c'.state = supply c.state + 1 ∧
      rewardsOf (freshOf E c blk) ≤ burnedOf c.state (freshOf E c blk) (freshOf E c blk) + 1 := by
  obtain ⟨c, c', S, S', blk, hc, ha, hs⟩ := reward_accepted plainEnv 1
  exact ⟨_, c, c', S, S', blk, hc, ha, hs, (issuance_iff hc ha).mp (le_of_eq hs)⟩

end Namecoin.Chain.Issuance
