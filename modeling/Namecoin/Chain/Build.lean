import Namecoin.Chain.Apply

/-! # Building blocks on a chain

A block whose header passes the checks against a chain (`NextBlock`) is accepted as soon as its
transactions apply (`NextBlock.applyBlock`). `blockOn` is such a block, with the fields a miner fills
in and no difficulty of its own, if its hash is below the target of the chain (`applyBlock_blockOn`).
With `staticConfig` the target is fixed, and can be chosen above the hashes of any given blocks; so
whatever lists of transactions apply one after the other to the ledger state (`LedgerRun`) are the
blocks of a chain (`LedgerRun.reached`). -/

namespace Namecoin.Chain.Build

open Lib.Ops Lib.ByteStrings Types.Defs Types.TxCodec Types.BlockCodec State.Defs State.Strict
open State.Effects Chain.Pow Chain.Stores Chain.Defs Chain.Apply

/-- The configuration with a fixed target. -/
def staticConfig (target : ℤ) : PoWConfig := ⟨some target, true, 0, 0, 0, ""⟩

/-- The empty chain on a store, with a fixed target. -/
def emptyChain (target : ℤ) (store : ℕ) : NamecoinChain :=
  configurePow (staticConfig target) (newNamecoinChain store)

/-- A `Reward` that pays `amount` to `addr`. -/
def rewardTx (addr : String) (amount : UInt64) : Tx :=
  ⟨addr, "Reward", none, none, amount, .nil, "", "", ""⟩

variable (E : Env)
variable {c : NamecoinChain} {txs : List Tx}

/-- The transaction root of transactions that can be written. -/
def rootOf (txs : List Tx) : Bytes :=
  match computeTxRoot E txs with
  | .ok root => root
  | .error _ => []

/-- The block of the given height on top of the hash `prev`. -/
def blockAt (height : UInt64) (prev : Slice UInt8) (txs : List Tx) (nonce : UInt64) : Block :=
  ⟨⟨height, prev, some (rootOf E txs), 1, nonce, "", none⟩, txs, none⟩

/-- The height of the next block of a chain. -/
def nextHeight (c : NamecoinChain) : UInt64 := if c.headHash = none then 0 else c.headHeight + 1

/-- A block on top of a chain. -/
def blockOn (c : NamecoinChain) (txs : List Tx) (nonce : UInt64) : Block :=
  blockAt E (nextHeight c) c.headHash txs nonce

variable {E}

theorem height_next {blk : Block} (h : ensureNextBlockFollows c.headHeight c.headHash blk = .ok ()) :
    blk.header.height = nextHeight c := by
  have hnext := ensureNextBlockFollows_ok_iff.mp h
  unfold nextHeight
  split_ifs at hnext ⊢
  · exact hnext.1
  · exact hnext.1

theorem computeTxRoot_rootOf (h : ∀ tx ∈ txs, tx.payload ≠ .invalid) :
    computeTxRoot E txs = .ok (rootOf E txs) := by
  obtain ⟨root, hr⟩ := computeTxRoot_ok (E := E) h
  unfold rootOf
  rw [hr]

theorem rootOf_ne_nil (E : Env) (txs : List Tx) (h : ∀ tx ∈ txs, tx.payload ≠ .invalid) :
    rootOf E txs ≠ [] := by
  obtain ⟨bytes, -, hr⟩ := except_map_ok_iff.mp (computeTxRoot_rootOf (E := E) h)
  rw [← hr]
  exact E.sha256_ne_nil _

/-- A block for the top of a chain, without a difficulty of its own: every check of its header passes
against the target of the chain, and its transactions can be written. -/
structure NextBlock (E : Env) (c : NamecoinChain) (blk : Block) : Prop where
  fits : hashFits E blk
  height : blk.header.height = nextHeight c
  prevHash : blk.header.prevHash = c.headHash
  txRoot : blk.header.txRoot = some (rootOf E blk.transactions)
  payloads : ∀ tx ∈ blk.transactions, tx.payload ≠ .invalid
  difficulty : decodeDifficulty blk.header.difficulty = none
  work : (toNatBE (computeHash E blk) : ℤ) ≤ effectiveTarget c.powTarget

theorem NextBlock.validateBlockHeader {blk : Block} (h : NextBlock E c blk) :
    validateBlockHeader E c.headHeight c.headHash blk c.powTarget = .ok () := by
  refine validateBlockHeader_ok_iff.mpr ⟨h.fits, ?_, ?_, c.powTarget, ?_, if_pos h.work⟩
  · refine ensureNextBlockFollows_ok_iff.mpr ?_
    rw [h.height, h.prevHash]
    unfold nextHeight
    split_ifs with hnone
    · exact ⟨rfl, by rw [hnone]; rfl⟩
    · exact ⟨rfl, rfl⟩
  · rw [h.txRoot]
    exact computeTxRoot_rootOf h.payloads
  · unfold enforceDifficultyTarget
    rw [h.difficulty]

/-- **A block for the top of a chain is accepted** if its transactions apply. -/
theorem NextBlock.applyBlock {S : Heap} {blk : Block} {st : NamecoinState} (h : NextBlock E c blk)
    (hh : HeadOK c.headHash) (hrun : StrictRun E blk.transactions (atHeight (nextHeight c) c.state) st) :
    ∃ data, marshal E (settleHash E blk) = .ok data ∧
      c.applyBlock E S blk = .ok (persist E S c.store blk data, chainAfter E c blk st) := by
  obtain ⟨data, hd⟩ := marshal_ok (E := E) (b := settleHash E blk)
    (by rw [settleHash_transactions]; exact h.payloads)
  refine ⟨data, hd, (applyBlock_ok_iff hh).mpr ⟨st, data, h.validateBlockHeader, ?_, hd, rfl, rfl⟩⟩
  rw [← h.height] at hrun
  exact applyBlockStrict_ok_iff.mpr hrun

theorem nextBlock_blockOn {nonce : UInt64} (hp : ∀ tx ∈ txs, tx.payload ≠ .invalid)
    (hwork : (toNatBE (computeHash E (blockOn E c txs nonce)) : ℤ) ≤ effectiveTarget c.powTarget) :
    NextBlock E c (blockOn E c txs nonce) := ⟨.inl rfl, rfl, rfl, rfl, hp, rfl, hwork⟩

/-- **A block built on a chain is accepted** if its transactions apply and its hash is small enough. -/
theorem applyBlock_blockOn {S : Heap} {nonce : UInt64}
    {st : NamecoinState} (hh : HeadOK c.headHash) (hp : ∀ tx ∈ txs, tx.payload ≠ .invalid)
    (hrun : StrictRun E txs (atHeight (nextHeight c) c.state) st)
    (hwork : (toNatBE (computeHash E (blockOn E c txs nonce)) : ℤ) ≤ effectiveTarget c.powTarget) :
    ∃ data, marshal E (settleHash E (blockOn E c txs nonce)) = .ok data ∧
      c.applyBlock E S (blockOn E c txs nonce) = .ok (persist E S c.store (blockOn E c txs nonce) data,
        chainAfter E c (blockOn E c txs nonce) st) :=
  (nextBlock_blockOn hp hwork).applyBlock hh hrun

/-! ### Runs of the ledger -/

/-- Lists of transactions that apply one after the other, as blocks from height `h` on. -/
inductive LedgerRun (E : Env) : UInt64 → NamecoinState → List (List Tx) → NamecoinState → Prop
  | nil (h : UInt64) (s : NamecoinState) : LedgerRun E h s [] s
  | cons {h : UInt64} {s st s' : NamecoinState} {txs : List Tx} {rest : List (List Tx)} :
    (∀ tx ∈ txs, tx.payload ≠ .invalid) → StrictRun E txs (atHeight h s) st →
    LedgerRun E (h + 1) (replaceWith s st) rest s' → LedgerRun E h s (txs :: rest) s'

theorem LedgerRun.snoc {h : UInt64} {s s₁ st : NamecoinState} {tss : List (List Tx)}
    (hrun : LedgerRun E h s tss s₁) (hp : ∀ tx ∈ txs, tx.payload ≠ .invalid)
    (hstep : StrictRun E txs (atHeight (h + UInt64.ofNat tss.length) s₁) st) :
    LedgerRun E h s (tss ++ [txs]) (replaceWith s₁ st) := by
  induction hrun with
  | nil h s => exact .cons hp (by simpa using hstep) (.nil _ _)
  | @cons h s _ s' txs' rest hp' hstep' _ ih =>
    refine .cons hp' hstep' (ih ?_)
    rwa [List.length_cons, UInt64.ofNat_add, UInt64.add_comm (UInt64.ofNat rest.length),
      ← UInt64.add_assoc] at hstep

/-- The blocks with the given transactions, each on top of the one before. -/
def blocksFrom (E : Env) : UInt64 → Slice UInt8 → List (List Tx) → List Block
  | _, _, [] => []
  | h, prev, txs :: rest =>
    let blk := blockAt E h prev txs 0
    blk :: blocksFrom E (h + 1) (some (computeHash E blk)) rest

/-- The hash of a block as the number that is compared with the target. -/
def workOf (E : Env) (blk : Block) : ℕ := toNatBE (computeHash E blk)

/-- A chain with a fixed target. -/
structure Static (target : ℤ) (c : NamecoinChain) : Prop where
  target : c.powTarget = some target
  params : c.powParams.dynamic = false

theorem Static.after {target : ℤ} (h : Static target c) {height : UInt64}
    {prev : Slice UInt8} {nonce : UInt64} (st : NamecoinState) :
    Static target (chainAfter E c (blockAt E height prev txs nonce) st) := by
  refine ⟨?_, h.params⟩
  show nextTarget E c.powParams ((decodeDifficulty none).or c.powTarget) c.headTS 1 = some target
  unfold nextTarget
  rw [if_neg (by simp [h.params]), h.target]
  rfl

theorem static_emptyChain (target : ℤ) (store : ℕ) : Static target (emptyChain target store) := ⟨rfl, rfl⟩

theorem extend_reached {target : ℤ} {st : NamecoinState}
    (hc : ReachedChain E c) (hs : Static target c) (hp : ∀ tx ∈ txs, tx.payload ≠ .invalid)
    (hrun : StrictRun E txs (atHeight (nextHeight c) c.state) st)
    (hwork : (workOf E (blockOn E c txs 0) : ℤ) ≤ target) (S : Heap) :
    ∃ S', c.applyBlock E S (blockOn E c txs 0) = .ok (S', chainAfter E c (blockOn E c txs 0) st) := by
  have hle : (toNatBE (computeHash E (blockOn E c txs 0)) : ℤ) ≤ effectiveTarget c.powTarget := by
    rw [hs.target]; exact hwork
  obtain ⟨data, -, ha⟩ := applyBlock_blockOn hc.headOK hp hrun hle
  exact ⟨_, ha⟩

theorem blocksFrom_append {txs : List (List Tx)} {b : Block} : ∀ {tss : List (List Tx)} {h : UInt64}
    {prev : Slice UInt8}, b ∈ blocksFrom E h prev tss → b ∈ blocksFrom E h prev (tss ++ txs)
  | [], _, _, hb => by simp [blocksFrom] at hb
  | _ :: _, _, _, hb => by
    rcases List.mem_cons.mp hb with rfl | hb
    · exact List.mem_cons_self
    · exact List.mem_cons_of_mem _ (blocksFrom_append hb)

theorem blocksFrom_height {b : Block} : ∀ {tss : List (List Tx)} {h : UInt64} {prev : Slice UInt8},
    b ∈ blocksFrom E h prev tss → ∃ i < tss.length, b.header.height = h + UInt64.ofNat i
  | [], _, _, hb => by simp [blocksFrom] at hb
  | _ :: rest, h, _, hb => by
    rcases List.mem_cons.mp hb with rfl | hb
    · exact ⟨0, Nat.succ_pos _, (UInt64.add_zero h).symm⟩
    · obtain ⟨i, hi, hh⟩ := blocksFrom_height hb
      refine ⟨i + 1, Nat.succ_lt_succ hi, ?_⟩
      rw [hh, UInt64.ofNat_add, UInt64.add_assoc, UInt64.add_comm 1]
      rfl

/-- What `LedgerRun.extend` says of the chain `c'` after the transactions `tss` from height `h` on. -/
structure Extends (E : Env) (P : Block → Prop) (target : ℤ) (h : UInt64) (prev : Slice UInt8)
    (tss : List (List Tx)) (s' : NamecoinState) (c' : NamecoinChain) : Prop where
  reached : ReachedBy E P c'
  static : Static target c'
  state : c'.state = s'
  head : prev ≠ none ∨ tss ≠ [] → c'.headHash ≠ none
  height : nextHeight c' = h + UInt64.ofNat tss.length
  next : ∀ txs, blockOn E c' txs 0 ∈ blocksFrom E h prev (tss ++ [txs])

theorem LedgerRun.extend {P : Block → Prop} {target : ℤ} {h : UInt64} {s s' : NamecoinState}
    {tss : List (List Tx)} (hrun : LedgerRun E h s tss s') : ∀ {c : NamecoinChain}, ReachedBy E P c →
      Static target c → h = nextHeight c → c.state = s →
      (∀ b ∈ blocksFrom E h c.headHash tss, P b ∧ (workOf E b : ℤ) ≤ target) →
      ∃ c', Extends E P target h c.headHash tss s' c' := by
  induction hrun with
  | nil h s =>
    intro c hc hs hh hst _
    exact ⟨c, hc, hs, hst, fun hne => hne.resolve_right fun hnil => hnil rfl, by simp [hh],
      fun txs => by simp [blocksFrom, blockOn, hh]⟩
  | @cons h s st s' txs rest hp hstep _ ih =>
    intro c hc hs hh hst hwork
    subst hh hst
    obtain ⟨hP, hle⟩ := hwork (blockOn E c txs 0) (by simp [blocksFrom, blockOn])
    obtain ⟨S', ha⟩ := extend_reached hc.reached hs hp hstep hle []
    have hnext : nextHeight (chainAfter E c (blockOn E c txs 0) st) = nextHeight c + 1 := rfl
    obtain ⟨c', hc'⟩ := ih (.step hc hP ha) (hs.after st) hnext.symm rfl
      fun b hb => hwork b (List.mem_cons_of_mem _ hb)
    refine ⟨c', hc'.reached, hc'.static, hc'.state,
      fun _ => hc'.head (.inl fun hnone => by cases hnone), ?_, fun txs' =>
      List.mem_cons_of_mem _ (hc'.next txs')⟩
    rw [hc'.height, List.length_cons, UInt64.ofNat_add, UInt64.add_assoc, UInt64.add_comm 1]
    rfl

/-- **The state after a run of the ledger is the state of a chain**, and what applies to it next is the
next block of that chain. -/
theorem LedgerRun.reached {s st : NamecoinState} {tss : List (List Tx)}
    (hrun : LedgerRun E 0 newState tss s) (hp : ∀ tx ∈ txs, tx.payload ≠ .invalid)
    (hstep : StrictRun E txs (atHeight (UInt64.ofNat tss.length) s) st) (S : Heap) :
    ∃ (c c' : NamecoinChain) (S' : Heap) (blk : Block),
      ReachedBy E (fun b => b.header.height.toNat < tss.length) c ∧ c.state = s ∧
      c.applyBlock E S blk = .ok (S', c') ∧ blk.transactions = txs ∧
      blk.header.height = UInt64.ofNat tss.length ∧ c'.state = replaceWith s st := by
  have hwork : ∀ b ∈ blocksFrom E 0 none (tss ++ [txs]),
      (workOf E b : ℤ) ≤ ((blocksFrom E 0 none (tss ++ [txs])).map (workOf E)).sum := fun b hb =>
    Int.ofNat_le.mpr (List.le_sum_of_mem (List.mem_map_of_mem hb))
  have hlow : ∀ b ∈ blocksFrom E 0 none tss, b.header.height.toNat < tss.length := fun b hb => by
    obtain ⟨i, hi, hh⟩ := blocksFrom_height hb
    rw [hh, UInt64.zero_add]
    exact lt_of_le_of_lt (Nat.mod_le _ _) hi
  obtain ⟨c, hc⟩ := hrun.extend (.empty 0 _) (static_emptyChain _ 0) rfl rfl
    fun b hb => ⟨hlow b hb, hwork b (blocksFrom_append hb)⟩
  have hheight : nextHeight c = UInt64.ofNat tss.length := by rw [hc.height]; exact UInt64.zero_add _
  rw [← hheight, ← hc.state] at hstep
  obtain ⟨S', ha⟩ := extend_reached hc.reached.reached hc.static hp hstep (hwork _ (hc.next txs)) S
  exact ⟨c, _, S', _, hc.reached, hc.state, ha, rfl, hheight, by rw [← hc.state]; rfl⟩

end Namecoin.Chain.Build
