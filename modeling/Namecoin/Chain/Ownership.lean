import Namecoin.Chain.Registration

/-! # Ownership of names

A live name keeps its owner through every accepted block, and only a signed `NameUpdate` of that owner
changes its record (`owner_safe`). The reason a name that is updated inside a block stays safe for the
rest of the block, even if its new expiry height wraps around, is the mark `SetDomain` leaves in
`claimedDomains`: a `NameFirstUpdate` of a marked name is refused. -/

namespace Namecoin.Chain.Ownership

open Lib.Maps Lib.Ops Types.Defs State.Defs State.Commands State.Strict State.Effects
open State.Invariant State.Wallet Types.SampleEnv Chain.Stores Chain.Defs Chain.Apply
open Chain.Build Chain.Registration

variable {E : Env}

/-- A `NameUpdate` of the name `d` by `owner`, signed with the key `owner` is the hash of. -/
def OwnerUpdate (E : Env) (d owner : String) (tx : Tx) : Prop :=
  ∃ n, tx.type = "NameUpdate" ∧ resolveCommand tx.type tx.payload = .ok (.nameUpdate n) ∧ n.domain = d ∧
    tx.fromAddr = owner ∧ Authentic E tx

variable {txID d : String} {tx : Tx} {s s' : NamecoinState} {r : NameRecord}

theorem updated_domain {n : NameUpdate} {c : NamecoinState} (hr : r.domain = n.domain) :
    (n.updated c r).domain = n.domain := by
  show (if blank n.domain then r.domain else n.domain) = n.domain
  split_ifs
  · exact hr
  · rfl

theorem firstUpdate_not_registered {n : NameFirstUpdate}
    (hcmd : resolveCommand tx.type tx.payload = .ok (.nameFirstUpdate n))
    (hv : validateTxStrict E s txID tx = .ok ()) : ¬ registered s n.domain := by
  have hval := (validateTxStrict_command hcmd hv).1
  simp only [NamecoinCommand.validate, NameFirstUpdate.validate, except_seq_ok_iff, failIf_ok_iff] at hval
  exact hval.2

theorem ownerUpdate_of_validate {n : NameUpdate}
    (hcmd : resolveCommand tx.type tx.payload = .ok (.nameUpdate n))
    (hv : validateTxStrict E s txID tx = .ok ()) (hd : s.domains.lookup n.domain = some r) :
    OwnerUpdate E n.domain r.owner tx := by
  have htype := resolveCommand_nameUpdate hcmd
  have hR : tx.type ≠ "Reward" := by rw [htype]; decide
  obtain ⟨-, h2, -⟩ := (validateTxStrict_user_iff hR).mp hv
  have h3 := (validateTxStrict_command hcmd hv).1
  obtain ⟨-, -, -, -, hauth⟩ := verifyTxAuth_ok_iff.mp h2
  refine ⟨n, htype, hcmd, rfl, ?_, hauth⟩
  simp only [NamecoinCommand.validate, NameUpdate.validate, hd, except_seq_ok_iff, failIf_ok_iff,
    not_not] at h3
  exact h3.2.symm

/-- The record a `NameFirstUpdate` leaves: its sender is the owner, and the name is marked. -/
theorem freshStep_registers {n : NameFirstUpdate} (h : FreshStep E txID tx s s')
    (hcmd : resolveCommand tx.type tx.payload = .ok (.nameFirstUpdate n)) :
    n.domain ∈ s'.claimedDomains ∧ ∃ r ttl, s'.domains.lookup n.domain = some r ∧ r.owner = tx.fromAddr ∧
      r.expiresAt = s.currentHeight + effectiveTTL s (resolveTTLPreference n.ttl ttl) := by
  obtain ⟨cmd, c, hcmd', -, hc, s₁, hn, rfl⟩ := freshStep_cases h
  rw [hcmd] at hcmd'
  cases hcmd'
  have hcoins : CoinsOnly s c := (coinEffect_coinsOnly txID tx _).ok hc
  cases hn with
  | nameFirstUpdate _ _ cr key =>
    refine ⟨?_, firstRecord n tx cr.ttl (dropExpired n.domain c), cr.ttl, ?_, rfl, ?_⟩
    · rw [markAsApplied_claimedDomains, deleteCommitment_claimedDomains, setDomain_claimedDomains]
      exact Finset.mem_insert_self _ _
    · rw [markAsApplied_domains, deleteCommitment_domains, setDomain_domains]
      exact Finmap.lookup_insert _
    · obtain ⟨e, he⟩ := dropExpired_eq n.domain c
      rw [he, hcoins]
      rfl

/-- **One transaction.** The record of a name that is live or marked stays, or is changed by its owner and
the name is marked. -/
theorem freshStep_record (hw : WellFormed s) (h : FreshStep E txID tx s s')
    (hd : s.domains.lookup d = some r) (hkeep : ¬ isExpired r s.currentHeight ∨ d ∈ s.claimedDomains) :
    s'.currentHeight = s.currentHeight ∧ s.claimedDomains ⊆ s'.claimedDomains ∧
      (s'.domains.lookup d = some r ∨ d ∈ s'.claimedDomains ∧ OwnerUpdate E d r.owner tx ∧
        ∃ r', s'.domains.lookup d = some r' ∧ r'.owner = r.owner) := by
  obtain ⟨cmd, c, hcmd, hv, hc, s₁, hn, rfl⟩ := freshStep_cases h
  have hcoins : CoinsOnly s c := (coinEffect_coinsOnly txID tx cmd).ok hc
  have hdom : c.domains = s.domains := by rw [hcoins]
  have hclaim : c.claimedDomains = s.claimedDomains := by rw [hcoins]
  have hheight : c.currentHeight = s.currentHeight := by rw [hcoins]
  refine ⟨(NameEffect.namesOnly hn).height.trans hheight, ?_⟩
  rw [← hdom] at hd
  rw [← hclaim]
  cases hn with
  | nameNew n => exact ⟨Finset.Subset.refl _, .inl hd⟩
  | reward => exact ⟨Finset.Subset.refl _, .inl hd⟩
  | nameFirstUpdate n _ cr key _ _ hnc =>
    have hne : d ≠ n.domain := by
      rintro rfl
      rcases hkeep with hlive | hmark
      · exact firstUpdate_not_registered hcmd hv (registered_iff.mpr ⟨r, hdom ▸ hd, hlive⟩)
      · rw [dropExpired_claimedDomains] at hnc
        exact hnc (hclaim ▸ hmark)
    rw [markAsApplied_domains, markAsApplied_claimedDomains, deleteCommitment_domains,
      deleteCommitment_claimedDomains, setDomain_domains, setDomain_claimedDomains,
      dropExpired_claimedDomains, lookup_insert_ite, firstRecord_domain, if_neg hne,
      lookup_dropExpired_ne _ hne]
    exact ⟨Finset.subset_insert _ _, .inl hd⟩
  | nameUpdate n _ r₁ hr₁ _ =>
    have hname : (n.updated c r₁).domain = n.domain := updated_domain (hw.named _ _ (hdom ▸ hr₁))
    rw [markAsApplied_domains, markAsApplied_claimedDomains, setDomain_claimedDomains, setDomain_domains,
      lookup_insert_ite, hname]
    refine ⟨Finset.subset_insert _ _, ?_⟩
    split_ifs with hdn
    · subst hdn
      rw [hd] at hr₁
      cases hr₁
      exact .inr ⟨Finset.mem_insert_self _ _, ownerUpdate_of_validate hcmd hv (hdom ▸ hd), _, rfl, rfl⟩
    · exact .inl hd

/-- **The transactions of a block.** -/
theorem strictRun_record {txs : List Tx} (h : StrictRun E txs s s') : ∀ {r : NameRecord}, WellFormed s →
    s.domains.lookup d = some r → (¬ isExpired r s.currentHeight ∨ d ∈ s.claimedDomains) →
    s'.domains.lookup d = some r ∨ (∃ tx ∈ txs, OwnerUpdate E d r.owner tx) ∧
      ∃ r', s'.domains.lookup d = some r' ∧ r'.owner = r.owner := by
  induction h with
  | nil => exact fun _ hd _ => .inl hd
  | skip _ _ _ ih =>
    intro r hw hd hkeep
    rcases ih hw hd hkeep with h | ⟨⟨tx, htx, hu⟩, h⟩
    · exact .inl h
    · exact .inr ⟨⟨tx, List.mem_cons_of_mem _ htx, hu⟩, h⟩
  | @fresh tx txs txID s s₁ s' hb _ hf _ ih =>
    intro r hw hd hkeep
    obtain ⟨hheight, hclaims, hd₁ | ⟨hmark, hu, r₁, hd₁, hown⟩⟩ := freshStep_record hw hf hd hkeep
    · have hkeep₁ : ¬ isExpired r s₁.currentHeight ∨ d ∈ s₁.claimedDomains := by
        rw [hheight]; exact hkeep.imp_right fun h => hclaims h
      rcases ih (hw.freshStep hb hf) hd₁ hkeep₁ with h | ⟨⟨tx', htx, hu⟩, h⟩
      · exact .inl h
      · exact .inr ⟨⟨tx', List.mem_cons_of_mem _ htx, hu⟩, h⟩
    · refine .inr ⟨⟨tx, List.mem_cons_self, hu⟩, ?_⟩
      rcases ih (hw.freshStep hb hf) hd₁ (.inr hmark) with h | ⟨-, r', h, hown'⟩
      · exact ⟨r₁, h, hown⟩
      · exact ⟨r', h, hown'.trans hown⟩

/-- **Ownership is safe.** A name that is live at the height of an accepted block is still registered
after the block, for the same owner, and its address or expiry height only changed if the block holds a
signed `NameUpdate` of that owner. -/
theorem owner_safe {S S' : Heap} {c c' : NamecoinChain} {blk : Block} (hc : ReachedChain E c)
    (ha : c.applyBlock E S blk = .ok (S', c')) (hd : c.state.domains.lookup d = some r)
    (hlive : blk.header.height < r.expiresAt) :
    ∃ r', c'.state.domains.lookup d = some r' ∧ r'.owner = r.owner ∧
      (r'.ip ≠ r.ip ∨ r'.expiresAt ≠ r.expiresAt →
      ∃ tx ∈ blk.transactions, OwnerUpdate E d r.owner tx) := by
  obtain ⟨st, -, hst, hc'⟩ := hc.applied ha
  have hprune := pruneExpired_pruned blk.header.height (setHeight blk.header.height c.state)
  have hd₀ : (atHeight blk.header.height c.state).domains.lookup d = some r := hprune.keeps d r hd hlive
  have hheight : (atHeight blk.header.height c.state).currentHeight = blk.header.height := by
    unfold atHeight; rw [hprune.rest]; rfl
  have hnotexp : ¬ isExpired r (atHeight blk.header.height c.state).currentHeight := by
    rw [hheight]
    exact fun h => absurd (UInt64.lt_of_lt_of_le hlive h.2) (UInt64.lt_irrefl _)
  rw [hc']
  rcases strictRun_record (applyBlockStrict_ok_iff.mp hst) (hc.wellFormed.1.atHeight _) hd₀ (.inl hnotexp)
    with h | ⟨hu, r', h, hown⟩
  · exact ⟨r, h, rfl, fun hne => absurd hne (by simp)⟩
  · exact ⟨r', h, hown, fun _ => hu⟩

theorem register_ledger (hc : E.CollisionFree) (hj : E.CanonicalJson) (k : Signer E) {domain : String}
    (hd : domain ≠ "") : ∃ s₀ s₁ r, Committed k domain s₀ ∧
    FreshStep E (revealFor k k domain).txID (revealFor k k domain) (atHeight 1 s₀) s₁ ∧
    LedgerRun E 0 newState [[rewardTx k.address 1, commitFor k domain], [revealFor k k domain]]
      (replaceWith s₀ s₁) ∧
    s₁.domains.lookup domain = some r ∧ r.owner = k.address ∧ r.expiresAt = 101 := by
  obtain ⟨s₀, hrun, hs₀⟩ := commit_ledger hc hj k domain 0
  obtain ⟨hid, s₁, hf⟩ := reveal_run hc hj k hd hs₀ 1
  have hcmd := resolveCommand_payload (.nameFirstUpdate (revealOf domain (commitFor k domain).txID))
  obtain ⟨-, r, ttl, hr, hown, hexp⟩ := freshStep_registers hf hcmd
  rw [atHeight_currentHeight] at hexp
  have hid₁ : (revealFor k k domain).txID ∉ (atHeight 1 s₀).txMap := by
    rw [(pruned_rest 1 s₀).2]
    exact hid
  have hpay : ∀ tx ∈ [revealFor k k domain], tx.payload ≠ .invalid := by
    simp [revealFor, walletTx, unsignedTx]
  have hrun₁ := hrun.snoc hpay (.fresh (buildTransactionID_revealFor k k domain) hid₁ hf (.nil _))
  exact ⟨s₀, s₁, r, hs₀, hf, hrun₁, hr, hown, hexp⟩

/-- A name that is registered, and whose owner moves it in the next block. -/
theorem owner_safe_update : ∃ (E : Env) (S S' : Heap) (c c' : NamecoinChain) (blk : Block)
      (r : NameRecord),
    ReachedChain E c ∧ c.applyBlock E S blk = .ok (S', c') ∧ c.state.domains.lookup "site" = some r ∧
      blk.header.height < r.expiresAt ∧ ∃ r', c'.state.domains.lookup "site" = some r' ∧
      r'.owner = r.owner ∧ (r'.ip ≠ r.ip ∨ r'.expiresAt ≠ r.expiresAt →
        ∃ tx ∈ blk.transactions, OwnerUpdate E "site" r.owner tx) := by
  let k := plainSigner 7
  have hj := plainEnv_canonicalJson
  have hinj := plainEnv_collisionFree
  obtain ⟨s₀, s₁, r, hs₀, hf, hrun₁, hr, hown, hexp⟩ :=
    register_ledger hinj hj k (show "site" ≠ "" by decide)
  have hlive : (2 : UInt64) < r.expiresAt := by
    rw [hexp]
    decide
  have hw₁ : WellFormed (replaceWith s₀ s₁) := by
    have hw := (hs₀.coins.atHeight 1).freshStep (buildTransactionID_revealFor k k "site") hf
    exact ⟨hw.named, hw.coins, hw.commits, hw.ids, hw.buckets, hw.ttl⟩
  have hid₂ : (updateTx k).txID ∉ (replaceWith s₀ s₁).txMap := fun hm => by
    rw [show (replaceWith s₀ s₁).txMap = s₁.txMap from rfl, freshStep_txMap hf,
      (pruned_rest 1 s₀).2] at hm
    rcases Finset.mem_insert.mp hm with h | h
    · exact txID_ne_of_type hinj hj (buildTransactionID_updateTx k)
        (buildTransactionID_revealFor k k "site") (show "NameUpdate" ≠ "NameFirstUpdate" by decide) h
    · exact hs₀.txID_notMem hinj hj (buildTransactionID_updateTx k)
        (show "NameUpdate" ≠ "Reward" by decide) (show "NameUpdate" ≠ "NameNew" by decide) h
  obtain ⟨s₂, hstep⟩ := update_run hw₁ hid₂ hr hown hlive
  have hpay₂ : ∀ tx ∈ [updateTx k], tx.payload ≠ .invalid := by simp [updateTx, walletTx, unsignedTx]
  obtain ⟨c, c', S', blk, hc, hst, ha, -, hheight, -⟩ := hrun₁.reached hpay₂ hstep []
  have hr' : c.state.domains.lookup "site" = some r := by rw [hst]; exact hr
  have hlive' : blk.header.height < r.expiresAt := by rw [hheight]; exact hlive
  exact ⟨_, [], S', c, c', blk, r, hc.reached, ha, hr', hlive', owner_safe hc.reached ha hr' hlive'⟩

end Namecoin.Chain.Ownership
