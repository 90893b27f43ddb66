import Namecoin.Chain.Coins
import Namecoin.Chain.HashCommitment
import Namecoin.Chain.Issuance

/-! # Runs of blocks

What holds of one accepted block, carried over to all the blocks that a chain
accepts one after the other.

* `tenure`: a name stays with its owner until its record expires, and until then nobody
  else changes the record;
* `supply_le_rewards`: the coins of a chain never exceed the rewards that it has paid;
* `head_commits`: chains with one head have the same blocks, and the same state as far as nil lists
  and payload texts go. -/

namespace Namecoin.Chain.Runs

open Types.Defs Types.TxCodec Types.BlockCodec Types.SampleEnv State.Defs State.Strict State.Effects
open State.Supply State.Utxo State.Wallet Chain.Pow Chain.Stores Chain.Defs Chain.Apply Chain.Build
open Chain.Registration Chain.Ownership Chain.History Chain.Coins Chain.Issuance
open Chain.HashCommitment

variable {E : Env} {S S' : Heap} {c c' c₁ c₂ : NamecoinChain} {blk : Block}
  {blks blks₁ blks₂ : List Block} {d : String} {r : NameRecord}

/-- The chain accepts these blocks, the last one first in the list. -/
inductive Accepts (E : Env) (c : NamecoinChain) : List Block → NamecoinChain → Prop
  | refl : Accepts E c [] c
  | step {S S' : Heap} {c₁ c₂ : NamecoinChain} {blk : Block} {blks : List Block} :
    Accepts E c blks c₁ → c₁.applyBlock E S blk = .ok (S', c₂) → Accepts E c (blk :: blks) c₂

theorem Accepts.reached (hc : ReachedChain E c) (h : Accepts E c blks c') : ReachedChain E c' := by
  induction h with
  | refl => exact hc
  | step _ ha ih => exact .step ih ha

/-! ### Names -/

theorem record_block (hc : ReachedChain E c) (ha : c.applyBlock E S blk = .ok (S', c'))
    (hd : c.state.domains.lookup d = some r) (hlive : ¬ isExpired r blk.header.height) :
    c'.state.domains.lookup d = some r ∨ (∃ tx ∈ blk.transactions, OwnerUpdate E d r.owner tx) ∧
      ∃ r', c'.state.domains.lookup d = some r' ∧ r'.owner = r.owner := by
  obtain ⟨st, -, hst, hc'⟩ := hc.applied ha
  have hkept : (atHeight blk.header.height c.state).domains.lookup d = some r :=
    pruneExpired_keeps hc.wellFormed.1.buckets hd hlive
  have hnotexp : ¬ isExpired r (atHeight blk.header.height c.state).currentHeight := by
    rwa [atHeight_currentHeight]
  rw [hc']
  exact strictRun_record (applyBlockStrict_ok_iff.mp hst) (hc.wellFormed.1.atHeight _)
    hkept (.inl hnotexp)

/-- **A name stays with its owner** over any number of blocks, and its record changes only if a
block holds a signed `NameUpdate` of the owner; or else a block has come in at whose height the
record of the owner had expired. -/
theorem tenure (hc : ReachedChain E c) (h : Accepts E c blks c')
    (hd : c.state.domains.lookup d = some r) :
    (∃ r', c'.state.domains.lookup d = some r' ∧ r'.owner = r.owner ∧
      (r' ≠ r → ∃ b ∈ blks, ∃ tx ∈ b.transactions, OwnerUpdate E d r.owner tx)) ∨
    ∃ later b before c₁ r₁, blks = later ++ b :: before ∧ Accepts E c before c₁ ∧
      c₁.state.domains.lookup d = some r₁ ∧ r₁.owner = r.owner ∧ isExpired r₁ b.header.height := by
  induction h with
  | refl => exact .inl ⟨r, hd, rfl, fun hne => absurd rfl hne⟩
  | @step S S' c₁ c₂ blk blks hrun ha ih =>
    rcases ih with ⟨r₁, hd₁, hown, hchange⟩ | ⟨later, b, before, c₀, r₀, rfl, hrest⟩
    · by_cases hlive : ¬ isExpired r₁ blk.header.height
      · have hbefore : r₁ ≠ r → ∃ b ∈ blk :: blks, ∃ tx ∈ b.transactions, OwnerUpdate E d r.owner tx :=
            fun hne => by
          obtain ⟨b, hb, hu⟩ := hchange hne
          exact ⟨b, List.mem_cons_of_mem _ hb, hu⟩
        rcases record_block (hrun.reached hc) ha hd₁ hlive with hsame | ⟨hu, r₂, hd₂, hown₂⟩
        · exact .inl ⟨r₁, hsame, hown, hbefore⟩
        · rw [hown] at hu
          exact .inl ⟨r₂, hd₂, hown₂.trans hown, fun _ => ⟨blk, List.mem_cons_self, hu⟩⟩
      · exact .inr ⟨[], blk, blks, c₁, r₁, rfl, hrun, hd₁, hown, not_not.mp hlive⟩
    · exact .inr ⟨blk :: later, b, before, c₀, r₀, rfl, hrest⟩

/-- A name that has been registered, and one more block. -/
theorem tenure_site : ∃ (E : Env) (c c' : NamecoinChain) (blk : Block) (r : NameRecord),
    ReachedChain E c ∧ Accepts E c [blk] c' ∧ c.state.domains.lookup "site" = some r ∧
    ¬ isExpired r blk.header.height ∧ ∃ r', c'.state.domains.lookup "site" = some r' ∧
    r'.owner = r.owner := by
  obtain ⟨s₀, s₁, r, -, -, hrun₁, hr, -, hexp⟩ :=
    register_ledger plainEnv_collisionFree plainEnv_canonicalJson (plainSigner 7)
      (show "site" ≠ "" by decide)
  obtain ⟨c, c', S', blk, hc, hst, ha, -, hheight, -⟩ := hrun₁.reached (by simp) (.nil _) []
  have hd : c.state.domains.lookup "site" = some r := by rw [hst]; exact hr
  have hlive : ¬ isExpired r blk.header.height := by
    unfold isExpired
    rw [hheight, hexp]
    show ¬ ((101 : UInt64) ≠ 0 ∧ 101 ≤ (2 : UInt64))
    decide
  have haccepts : Accepts plainEnv c [blk] c' := .step .refl ha
  refine ⟨_, c, c', blk, r, hc.reached, haccepts, hd, hlive, ?_⟩
  rcases tenure hc.reached haccepts hd with ⟨r', hd', hown, -⟩ | ⟨later, b, before, c₁, r₁, hsplit,
    hbefore, hd₁, -, hexpired⟩
  · exact ⟨r', hd', hown⟩
  · cases later with
    | cons b' later => simp at hsplit
    | nil =>
      cases hsplit
      cases hbefore
      rw [Option.some.inj (hd.symm.trans hd₁)] at hlive
      exact absurd hexpired hlive

/-! ### Coins -/

theorem rewardsOf_append : ∀ l l' : List (String × Tx), rewardsOf (l ++ l') = rewardsOf l + rewardsOf l'
  | [], l' => (Nat.zero_add _).symm
  | e :: l, l' => by
    rw [List.cons_append, rewardsOf, rewardsOf_append l l', rewardsOf, Nat.add_assoc]

/-- **No coins but the rewards**: what is left after any run of blocks is at most what the rewards
among the transactions that took effect have paid. -/
theorem supply_le_rewards {log : List Event} (h : ChainRun E c log) :
    supply c.state ≤ rewardsOf (log.map fun e => (e.txID, e.tx)) := by
  induction h with
  | empty store cfg => exact Nat.zero_le _
  | @step S S' c c' blk log hrun ha ih =>
    have hblock := supply_block hrun.reached ha
    have hevents : (eventsAt blk.header.height (freshOf E c blk)).map (fun e => (e.txID, e.tx)) =
        freshOf E c blk := by
      rw [eventsAt, List.map_map]
      exact List.map_id _
    rw [List.map_append, rewardsOf_append, hevents]
    omega

/-- One coin is paid and spent. -/
theorem supply_le_genesis : ∃ c log, ChainRun plainEnv c log ∧ log.length = 2 ∧ supply c.state ≤ 1 := by
  obtain ⟨c, hrun⟩ := genesis_run plainEnv_collisionFree plainEnv_canonicalJson (plainSigner 7)
  exact ⟨c, _, hrun, rfl, supply_le_rewards hrun⟩

/-! ### Heads -/

theorem cloneBytes_prevHash (hh : HeadOK c.headHash)
    (h : ensureNextBlockFollows c.headHeight c.headHash blk = .ok ()) :
    cloneBytes blk.header.prevHash = c.headHash := by
  have hnext := ensureNextBlockFollows_ok_iff.mp h
  split_ifs at hnext with hnone
  · rw [hnone, cloneBytes, hnext.2]
    rfl
  · rw [← hh, cloneBytes, cloneBytes, hnext.2]

/-- One header, and transactions with the same entries in the root. -/
def SameBlock (b₁ b₂ : Block) : Prop :=
  b₁.header = b₂.header ∧ List.Forall₂ SameForRoot b₁.transactions b₂.transactions

/-- **The head commits to the chain**: two chains with one head hash, whatever their stores and
configurations, have accepted the same blocks, and they are in the same state if the
transactions are read alike. -/
theorem head_commits (hE : E.CollisionFree) (hj : E.CanonicalJson) {store₁ store₂ : ℕ}
    {cfg₁ cfg₂ : PoWConfig} (h₁ : Accepts E (configurePow cfg₁ (newNamecoinChain store₁)) blks₁ c₁)
    (h₂ : Accepts E (configurePow cfg₂ (newNamecoinChain store₂)) blks₂ c₂)
    (hhead : c₁.headHash = c₂.headHash) :
    List.Forall₂ SameBlock blks₁ blks₂ ∧
      (List.Forall₂ (fun b₁ b₂ => List.Forall₂ SameReading b₁.transactions b₂.transactions) blks₁ blks₂ →
        c₁.state = c₂.state) := by
  induction h₁ generalizing blks₂ c₂ with
  | refl =>
    cases h₂ with
    | refl => exact ⟨.nil, fun _ => rfl⟩
    | step h ha =>
      obtain ⟨st, data, -, -, -, -, rfl⟩ := (applyBlock_ok_iff (h.reached (.empty _ _)).headOK).mp ha
      cases hhead
  | @step S₁ S₁' d₁ c₁ b₁ blks₁ hrun₁ ha₁ ih =>
    have hd₁ := hrun₁.reached (.empty _ _)
    obtain ⟨st₁, data₁, hv₁, hst₁, -, -, rfl⟩ := (applyBlock_ok_iff hd₁.headOK).mp ha₁
    cases h₂ with
    | refl => cases hhead
    | @step S₂ S₂' d₂ _ b₂ blks₂ hrun₂ ha₂ =>
      have hd₂ := hrun₂.reached (.empty _ _)
      obtain ⟨st₂, data₂, hv₂, hst₂, -, -, rfl⟩ := (applyBlock_ok_iff hd₂.headOK).mp ha₂
      have hheader : b₁.header = b₂.header := serializeHeader_injective (hE (Option.some.inj hhead))
      obtain ⟨-, hnext₁, hroot₁, -⟩ := validateBlockHeader_ok_iff.mp hv₁
      obtain ⟨-, hnext₂, hroot₂, -⟩ := validateBlockHeader_ok_iff.mp hv₂
      rw [← hheader] at hroot₂
      have hsame := computeTxRoot_inj hE hj hroot₁ hroot₂
      -- the heads below the two blocks are the previous hash of their header
      have hbelow : d₁.headHash = d₂.headHash := by
        rw [← cloneBytes_prevHash hd₁.headOK hnext₁, ← cloneBytes_prevHash hd₂.headOK hnext₂, hheader]
      obtain ⟨hblocks, hstate⟩ := ih hrun₂ hbelow
      refine ⟨.cons ⟨hheader, hsame⟩ hblocks, fun hread => ?_⟩
      obtain ⟨hr, hrest⟩ := List.forall₂_cons.mp hread
      have hrun := applyBlockStrict_ok_iff.mp hst₂
      rw [← hheader, ← hstate hrest] at hrun
      have hst : st₁ = st₂ := strictRun_unique (applyBlockStrict_ok_iff.mp hst₁) hsame
        (hr.imp fun _ _ => .inl) hrun
      show replaceWith d₁.state st₁ = replaceWith d₂.state st₂
      rw [hst, hstate hrest]

/-- The head after some blocks. -/
def headAfter (E : Env) (prev : Slice UInt8) (blks : List Block) : Slice UInt8 :=
  blks.foldl (fun _ b => some (computeHash E b)) prev

/-- **A run of the ledger is accepted** by a chain whose fixed target is not below
the hashes of its blocks. -/
theorem accepts_ledgerRun {target : ℤ} {h : UInt64} {s s' : NamecoinState} {tss : List (List Tx)}
    {c₀ : NamecoinChain} (hc₀ : ReachedChain E c₀) (hrun : LedgerRun E h s tss s') :
    ∀ {blks : List Block} {c : NamecoinChain},
      Accepts E c₀ blks c → Static target c → h = nextHeight c → c.state = s →
      (∀ b ∈ blocksFrom E h c.headHash tss, (workOf E b : ℤ) ≤ target) →
      ∃ c', Accepts E c₀ ((blocksFrom E h c.headHash tss).reverse ++ blks) c' ∧ c'.state = s' ∧
      c'.store = c.store ∧
        c'.headHash = headAfter E c.headHash (blocksFrom E h c.headHash tss) := by
  induction hrun with
  | nil h s => exact fun {_ c} hc _ _ hst _ => ⟨c, hc, hst, rfl, rfl⟩
  | @cons h s st s' txs rest hp hstep _ ih =>
    intro blks c hc hs hh hst hwork
    subst hh hst
    have hle := hwork (blockOn E c txs 0) (by simp [blocksFrom, blockOn])
    obtain ⟨S', ha⟩ := extend_reached (hc.reached hc₀) hs hp hstep hle []
    have hnext : nextHeight (chainAfter E c (blockOn E c txs 0) st) = nextHeight c + 1 := rfl
    obtain ⟨c', hc', hrest⟩ := ih (hc.step ha) (hs.after st) hnext.symm rfl
      fun b hb => hwork b (List.mem_cons_of_mem _ hb)
    refine ⟨c', ?_, hrest⟩
    rw [blocksFrom, List.reverse_cons, List.append_assoc]
    exact hc'

/-- The transactions of two blocks that register a name. -/
def siteTxs (k : Signer E) : List (List Tx) := [[rewardTx k.address 1, commitTx k], [revealTx k k]]

theorem accepts_site (hinj : E.CollisionFree) (hj : E.CanonicalJson) (k : Signer E) :
    ∃ (b₁ b₂ : Block) (t : ℤ), b₂.transactions = [revealTx k k] ∧ ∀ (store : ℕ) (t' : ℤ), t ≤ t' → ∃ c,
      Accepts E (emptyChain t' store) [b₂, b₁] c ∧ c.store = store ∧
      c.headHash = some (computeHash E b₂) := by
  obtain ⟨s₀, s₁, -, -, -, hrun, -⟩ := register_ledger hinj hj k (show "site" ≠ "" by decide)
  let b₁ := blockAt E 0 none [rewardTx k.address 1, commitTx k] 0
  let b₂ := blockAt E (0 + 1) (some (computeHash E b₁)) [revealTx k k] 0
  refine ⟨b₁, b₂, ((blocksFrom E 0 none (siteTxs k)).map (workOf E)).sum, rfl, fun store t' ht => ?_⟩
  have hwork : ∀ b ∈ blocksFrom E 0 none (siteTxs k), (workOf E b : ℤ) ≤ t' := fun b hb =>
    (Int.ofNat_le.mpr (List.le_sum_of_mem (List.mem_map_of_mem hb))).trans ht
  obtain ⟨c, hc, -, hstore, hhead⟩ := accepts_ledgerRun (.empty store _) hrun .refl
    (static_emptyChain t' store) rfl rfl hwork
  exact ⟨c, hc, hstore, hhead⟩

/-- Two chains with their own stores and targets have accepted the two blocks that register a name. -/
theorem head_commits_site : ∃ (c₁ c₂ : NamecoinChain) (b₁ b₂ : Block) (t : ℤ), c₁.store ≠ c₂.store ∧
    b₂.transactions = [revealTx (plainSigner 7) (plainSigner 7)] ∧
    Accepts plainEnv (emptyChain t 0) [b₂, b₁] c₁ ∧
    Accepts plainEnv (emptyChain (t + 1) 1) [b₂, b₁] c₂ ∧ c₁.headHash = c₂.headHash ∧
    c₁.state = c₂.state := by
  have hinj := plainEnv_collisionFree
  have hj := plainEnv_canonicalJson
  obtain ⟨b₁, b₂, t, htxs, hall⟩ := accepts_site hinj hj (plainSigner 7)
  obtain ⟨c₁, h₁, hstore₁, hhead₁⟩ := hall 0 t le_rfl
  obtain ⟨c₂, h₂, hstore₂, hhead₂⟩ := hall 1 (t + 1) (by omega)
  have hhead : c₁.headHash = c₂.headHash := hhead₁.trans hhead₂.symm
  have hread : ∀ b : Block, List.Forall₂ SameReading b.transactions b.transactions := fun b =>
    List.forall₂_same.mpr fun tx _ => ⟨Iff.rfl, Iff.rfl, rfl⟩
  refine ⟨c₁, c₂, b₁, b₂, t, ?_, htxs, h₁, h₂, hhead, ?_⟩
  · rw [hstore₁, hstore₂]
    decide
  · exact (head_commits hinj hj h₁ h₂ hhead).2 (.cons (hread b₂) (.cons (hread b₁) .nil))

end Namecoin.Chain.Runs
