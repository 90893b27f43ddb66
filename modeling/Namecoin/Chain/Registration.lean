import Namecoin.Chain.Build
import Namecoin.State.Progress
import Namecoin.State.Wallet

/-! # How a name is registered

A run of the ledger in which one address is paid a coin and commits to a name with it
(`commit_run`), an address of its own or another reveals the name later (`reveal_run`), after any
number of empty blocks, and the owner changes the record (`update_run`). The runs are the blocks of
a chain by `LedgerRun.reached`. -/

namespace Namecoin.Chain.Registration

open Lib.Maps Lib.Ops Lib.ByteStrings Types.Defs Types.TxCodec State.Defs State.Utxo State.Commands
open State.Strict State.Effects State.Invariant State.SpendPlan State.Wallet State.Progress
open Chain.Build

variable {E : Env}

/-! ### The transactions -/

/-- The ID of a reward. -/
def rewardID (E : Env) (addr : String) (amount : UInt64) : String :=
  hashHex E (E.canonicaljson (.obj (txMembers (rewardTx addr amount) .null)))

/-- What a name is revealed with, for a lifetime of 100 blocks. -/
def revealOf (domain commitID : String) : NameFirstUpdate := ⟨domain, "salt", "10.0.0.1", 100, commitID⟩

/-- The `NameNew` that commits to a name, paid with the reward. -/
def commitFor (k : Signer E) (domain : String) : Tx :=
  walletTx k (.nameNew ⟨commitmentOf E (revealOf domain ""), 0⟩) 1 [⟨rewardID E k.address 1, 0⟩] []

/-- The `NameFirstUpdate` of `k'` that reveals the name `k` committed to. -/
def revealFor (k k' : Signer E) (domain : String) : Tx :=
  walletTx k' (.nameFirstUpdate (revealOf domain (commitFor k domain).txID)) 0 [] []

/-- What the name is revealed with. -/
abbrev reveal (commitID : String) : NameFirstUpdate := revealOf "site" commitID

/-- The `NameNew` that commits to the name. -/
abbrev commitTx (k : Signer E) : Tx := commitFor k "site"

/-- The `NameFirstUpdate` that reveals the name. -/
abbrev revealTx (k k' : Signer E) : Tx := revealFor k k' "site"

/-- The `NameUpdate` that moves the name to another address. -/
def updateTx (k : Signer E) : Tx := walletTx k (.nameUpdate ⟨"site", "10.0.0.2", 0⟩) 0 [] []

theorem buildTransactionID_rewardTx (addr : String) (amount : UInt64) :
    buildTransactionID E (rewardTx addr amount) = .ok (rewardID E addr amount) := rfl

theorem buildTransactionID_commitFor (k : Signer E) (domain : String) :
    buildTransactionID E (commitFor k domain) = .ok (commitFor k domain).txID := rfl

theorem buildTransactionID_revealFor (k k' : Signer E) (domain : String) :
    buildTransactionID E (revealFor k k' domain) = .ok (revealFor k k' domain).txID := rfl

theorem buildTransactionID_updateTx (k : Signer E) :
    buildTransactionID E (updateTx k) = .ok (updateTx k).txID := rfl

theorem txID_ne_of_type (hc : E.CollisionFree) (hj : E.CanonicalJson) {a b : Tx} {i j : String}
    (ha : buildTransactionID E a = .ok i) (hb : buildTransactionID E b = .ok j) (h : a.type ≠ b.type) :
    i ≠ j := by
  rintro rfl
  exact h (buildTransactionID_inj hc hj ha hb).type

/-! ### The commitment -/

theorem atHeight_of_no_expires {s : NamecoinState} (h : s.expires = ∅) (height : UInt64) :
    atHeight height s = setHeight height s := by
  have hkeys : sortedKeys wordLE (setHeight height s).expires = [] := by
    show sortedKeys wordLE s.expires = []
    rw [h]
    rfl
  unfold atHeight pruneExpired
  rw [hkeys]
  rfl

/-- The state after the reward. -/
def funded (k : Signer E) : NamecoinState :=
  markAsApplied (rewardID E k.address 1)
    (withUTXO (rewardCoin (rewardID E k.address 1) (rewardTx k.address 1)) newState)

theorem spendPlan_funded (k : Signer E) :
    deterministicSpendPlan (funded k) k.address 1 =
      .ok (some [⟨rewardID E k.address 1, 0⟩], some []) := by
  have hm : (funded k).utxoMap.lookup k.address =
    some ((∅ : Map String UTXO).insert (rewardID E k.address 1) ⟨rewardID E k.address 1, k.address, 1,
    0⟩) := Finmap.lookup_insert _
  rw [spendPlan_singleton hm (show (1 : UInt64) ≠ 0 by decide) (UInt64.le_refl _)]
  simp [changeOutputs]

/-- What the state after the commitment holds. -/
structure Committed (k : Signer E) (domain : String) (s : NamecoinState) : Prop where
  domains : s.domains = ∅
  expires : s.expires = ∅
  claimed : s.claimedDomains = ∅
  ttl : s.domainTTL = clampTTL defaultDomainTTLBlocks
  commit : s.commitments.lookup (outpointKey (commitFor k domain).txID 0) =
    some ⟨commitmentOf E (revealOf domain ""), defaultDomainTTLBlocks, 0⟩
  applied : s.txMap = {rewardID E k.address 1, (commitFor k domain).txID}
  coins : WellFormed s

theorem commit_run (hc : E.CollisionFree) (hj : E.CanonicalJson) (k : Signer E) (domain : String) :
    ∃ s, StrictRun E [rewardTx k.address 1, commitFor k domain] (atHeight 0 newState) s ∧
    Committed k domain s := by
  have hstart : atHeight 0 newState = newState := atHeight_of_no_expires rfl 0
  have hreward : FreshStep E (rewardID E k.address 1) (rewardTx k.address 1) newState (funded k) :=
    freshStep_reward rfl (.inl rfl) (by simp [rewardTx]) Finmap.notMem_empty
  have hne : (commitFor k domain).txID ≠ rewardID E k.address 1 :=
    txID_ne_of_type hc hj (buildTransactionID_commitFor k domain) (buildTransactionID_rewardTx _ _)
      (show "NameNew" ≠ "Reward" by decide)
  have hid : (commitFor k domain).txID ∉ (funded k).txMap := fun hm => by
    rcases Finset.mem_insert.mp hm with h | h
    · exact hne h
    · exact Finset.notMem_empty _ h
  have hwell : WellFormed (funded k) :=
    wellFormed_newState.freshStep (buildTransactionID_rewardTx _ _) hreward
  have hnew : (commitFor k domain).txID ∉ account (funded k) (commitFor k domain).fromAddr := fun hm =>
    hid (hwell.coins _ _ hm)
  have hcmd : resolveCommand (commitFor k domain).type (commitFor k domain).payload =
      .ok (.nameNew ⟨commitmentOf E (revealOf domain ""), 0⟩) :=
    resolveCommand_payload (.nameNew ⟨commitmentOf E (revealOf domain ""), 0⟩)
  have hv : validateTxStrict E (funded k) (commitFor k domain).txID (commitFor k domain) = .ok () := by
    refine validateTxStrict_walletTx (by simp) (spendPlan_funded k) ?_ rfl
    exact failIf_ok_iff.mpr fun h => E.sha256_ne_nil _ (hexEncode_eq_empty.mp h)
  have hstep : FreshStep E (commitFor k domain).txID (commitFor k domain) (funded k) _ :=
    (freshStep_user_iff (show "NameNew" ≠ "Reward" by decide) hcmd hnew).mpr ⟨hv, _, .nameNew _ _, rfl⟩
  have hcoins : CoinsOnly (funded k) (spentState (commitFor k domain).txID
      (commitFor k domain) (funded k)) :=
    (applyUTXOGeneric_coinsOnly _ _).ok (applyUTXOGeneric_spend (spendPlan_ok (spendPlan_funded k)) hnew)
  have hrun : StrictRun E [rewardTx k.address 1, commitFor k domain] newState _ :=
    .fresh (buildTransactionID_rewardTx _ _) (Finset.notMem_empty _) hreward
      (.fresh (buildTransactionID_commitFor k domain) hid hstep (.nil _))
  refine ⟨_, hstart ▸ hrun, ?_, ?_, ?_, ?_, ?_, ?_,
    hwell.freshStep (buildTransactionID_commitFor k domain) hstep⟩
  · rw [hcoins]; rfl
  · rw [hcoins]; rfl
  · rw [hcoins]; rfl
  · rw [hcoins]; rfl
  · rw [hcoins]
    exact Finmap.lookup_insert _
  · rw [freshStep_txMap hstep]
    exact Finset.pair_comm _ _

/-! ### Empty blocks -/

theorem quiet_run : ∀ (n : ℕ) (h : UInt64) {s : NamecoinState}, s.expires = ∅ →
    ∃ height, LedgerRun E h s (List.replicate n []) (setHeight height s)
  | 0, h, s, _ => ⟨s.currentHeight, .nil h s⟩
  | n + 1, h, s, hs => by
    obtain ⟨height, hr⟩ := quiet_run n (h + 1) (s := setHeight h s) hs
    have hstep : StrictRun E [] (atHeight h s) (setHeight h s) := by
      rw [atHeight_of_no_expires hs]
      exact .nil _
    exact ⟨height, .cons (by simp) hstep hr⟩

theorem commit_ledger (hc : E.CollisionFree) (hj : E.CanonicalJson) (k : Signer E)
    (domain : String) (n : ℕ) :
    ∃ s, LedgerRun E 0 newState ([rewardTx k.address 1, commitFor k domain] :: List.replicate n []) s ∧
      Committed k domain s := by
  obtain ⟨s₀, hrun, hs⟩ := commit_run hc hj k domain
  have hrep : replaceWith newState s₀ = s₀ := by
    unfold replaceWith
    rw [show newState.claimedDomains = s₀.claimedDomains from hs.claimed.symm]
  obtain ⟨height, hquiet⟩ := quiet_run (E := E) n (0 + 1) hs.expires
  have hpay : ∀ tx ∈ [rewardTx k.address 1, commitFor k domain], tx.payload ≠ .invalid := by
    simp [rewardTx, commitFor, walletTx, unsignedTx]
  refine ⟨setHeight height s₀, .cons hpay hrun (by rw [hrep]; exact hquiet), ?_⟩
  exact ⟨hs.domains, hs.expires, hs.claimed, hs.ttl, hs.commit, hs.applied,
    ⟨hs.coins.named, hs.coins.coins, hs.coins.commits, hs.coins.ids, hs.coins.buckets, hs.coins.ttl⟩⟩

/-! ### The reveal -/

theorem commitKey_reveal (k k' : Signer E) (domain : String) :
    commitKey (revealOf domain (commitFor k domain).txID) (revealFor k k' domain) =
      some (outpointKey (commitFor k domain).txID 0) :=
  if_neg (walletTx_txID_ne _ _ _ _ _)

theorem Committed.txID_notMem (hc : E.CollisionFree) (hj : E.CanonicalJson) {k : Signer E}
    {domain : String} {s : NamecoinState} (hs : Committed k domain s) {tx : Tx} {id : String}
    (hb : buildTransactionID E tx = .ok id) (hR : tx.type ≠ "Reward") (hN : tx.type ≠ "NameNew") :
    id ∉ s.txMap := fun hm => by
  rw [hs.applied] at hm
  rcases Finset.mem_insert.mp hm with h | h
  · exact txID_ne_of_type hc hj hb (buildTransactionID_rewardTx _ _) hR h
  · exact txID_ne_of_type hc hj hb (buildTransactionID_commitFor k domain) hN (Finset.mem_singleton.mp h)

theorem reveal_run (hc : E.CollisionFree) (hj : E.CanonicalJson) {k : Signer E} (k' : Signer E)
    {domain : String} (hd : domain ≠ "") {s : NamecoinState} (hs : Committed k domain s)
    (height : UInt64) :
    (revealFor k k' domain).txID ∉ s.txMap ∧
      ∃ s', FreshStep E (revealFor k k' domain).txID (revealFor k k' domain) (atHeight height s) s' := by
  have hid : (revealFor k k' domain).txID ∉ s.txMap :=
    hs.txID_notMem hc hj (buildTransactionID_revealFor k k' domain)
      (show "NameFirstUpdate" ≠ "Reward" by decide) (show "NameFirstUpdate" ≠ "NameNew" by decide)
  refine ⟨hid, ?_⟩
  rw [atHeight_of_no_expires hs.expires]
  have hreg : ¬ registered (setHeight height s) domain := by
    rw [registered_iff]
    rintro ⟨r, hr, -⟩
    rw [show (setHeight height s).domains = ∅ from hs.domains] at hr
    simp at hr
  have hcmd : resolveCommand (revealFor k k' domain).type (revealFor k k' domain).payload =
      .ok (.nameFirstUpdate (revealOf domain (commitFor k domain).txID)) :=
    resolveCommand_payload (.nameFirstUpdate (revealOf domain (commitFor k domain).txID))
  have hv : validateTxStrict E (setHeight height s) (revealFor k k' domain).txID (revealFor k k' domain) =
      .ok () := by
    refine validateTxStrict_walletTx (by simp) rfl ?_ ?_
    · simp only [NamecoinCommand.validate, NameFirstUpdate.validate, except_seq_ok_iff, failIf_ok_iff]
      refine ⟨fun h => ?_, hreg⟩
      exact h.elim hd (show ¬ ("salt" = "" ∨ "10.0.0.1" = "") by decide)
    · exact firstUpdate_validateWithInputs_iff.mpr ⟨⟨_, _, commitKey_reveal k k' domain, hs.commit, rfl,
        fun h => absurd h.1 (UInt64.lt_irrefl 0)⟩, hreg⟩
  have hnew : (revealFor k k' domain).txID ∉ account (setHeight height s)
      (revealFor k k' domain).fromAddr :=
    fun hm => hid (hs.coins.coins _ _ hm)
  refine (freshStep_exists_iff (show "NameFirstUpdate" ≠ "Reward" by decide) hcmd hnew).mpr
    ⟨hv, fun n _ => ?_⟩
  rw [show (setHeight height s).claimedDomains = ∅ from hs.claimed]
  exact Finset.notMem_empty _

theorem update_run {k : Signer E} {s : NamecoinState} {r : NameRecord} {height : UInt64}
    (hw : WellFormed s) (hid : (updateTx k).txID ∉ s.txMap) (hr : s.domains.lookup "site" = some r)
    (hown : r.owner = k.address) (hlive : height < r.expiresAt) :
    ∃ s', StrictRun E [updateTx k] (atHeight height s) s' := by
  have hprune := pruneExpired_pruned height (setHeight height s)
  have hr' : (atHeight height s).domains.lookup "site" = some r := hprune.keeps _ r hr hlive
  have hheight : (atHeight height s).currentHeight = height := by unfold atHeight; rw [hprune.rest]; rfl
  have happlied : (atHeight height s).txMap = s.txMap := by unfold atHeight; rw [hprune.rest]; rfl
  have hid' : (updateTx k).txID ∉ (atHeight height s).txMap := by rw [happlied]; exact hid
  have hcmd : resolveCommand (updateTx k).type (updateTx k).payload =
      .ok (.nameUpdate ⟨"site", "10.0.0.2", 0⟩) :=
    resolveCommand_payload (.nameUpdate ⟨"site", "10.0.0.2", 0⟩)
  have hv : validateTxStrict E (atHeight height s) (updateTx k).txID (updateTx k) = .ok () := by
    refine validateTxStrict_walletTx (by simp) rfl ?_ rfl
    simp only [NamecoinCommand.validate, NameUpdate.validate, hr', except_seq_ok_iff,
      failIf_ok_iff, not_not]
    refine ⟨fun h => ?_, hown⟩
    rw [hheight] at h
    exact absurd (UInt64.lt_of_lt_of_le hlive h.2) (UInt64.lt_irrefl _)
  have hnew : (updateTx k).txID ∉ account (atHeight height s) (updateTx k).fromAddr :=
    fun hm => hid' ((hw.atHeight height).coins _ _ hm)
  obtain ⟨s', hf⟩ := (freshStep_exists_iff (show "NameUpdate" ≠ "Reward" by decide) hcmd hnew).mpr
    ⟨hv, fun n h => (by cases h)⟩
  exact ⟨s', .fresh (buildTransactionID_updateTx k) hid' hf (.nil _)⟩

end Namecoin.Chain.Registration
