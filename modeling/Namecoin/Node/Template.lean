import Namecoin.Chain.Coins
import Namecoin.Node.Mempool

/-! # The block a miner builds

`assembleBlock` puts the transactions of the buffer after the reward of the miner. Each of them was
admitted on its own, at the height of the head (`pending_of_admission`); the block applies them
together, one height later.

* `assembled_iff`: when the transactions of such a block apply;
* `template_iff`: the same of what the buffer hands out after any number of admissions. -/

namespace Namecoin.Node.Template

open Lib.Maps Lib.Ops Lib.ByteStrings Lib.Json Types.Defs Types.TxCodec Types.BlockCodec
open Types.SampleEnv State.Defs State.Utxo State.Commands State.Strict State.Effects State.SpendPlan
open State.Fresh State.Together State.Wallet Chain.Stores Chain.Defs Chain.Apply Chain.Build
open Chain.Registration Chain.History Chain.Coins Node.Mempool

/-! ### `AssembleBlock` -/

/-- The reward of a block; the height in its payload makes its ID unique. -/
def blockReward (height : UInt64) (minersPubKey : String) : Tx :=
  ⟨minersPubKey, "Reward", none, some [⟨minersPubKey, 1⟩], 1,
    .text (.obj [("height", numText height.toNat)]), "", "", ""⟩

/-- `AssembleBlock`. An error is a panic of the code. -/
def assembleBlock (E : Env) (h : BlockHeader) (pending : List Tx) (minersPubKey : String) :
    Except Err Block := do
  let txs := blockReward h.height minersPubKey :: pending
  let root ← computeTxRoot E txs
  let block : Block := ⟨{ h with txRoot := some root }, txs, none⟩
  return { block with hash := some (computeHash E block) }

variable {E : Env}

theorem assembleBlock_ok (h : BlockHeader) {pending : List Tx} (miner : String)
    (hp : ∀ tx ∈ pending, tx.payload ≠ .invalid) : ∃ blk, assembleBlock E h pending miner = .ok blk ∧
      blk.header.height = h.height ∧ blk.transactions = blockReward h.height miner :: pending := by
  have hall : ∀ tx ∈ blockReward h.height miner :: pending, tx.payload ≠ .invalid :=
    List.forall_mem_cons.mpr ⟨by simp [blockReward], hp⟩
  obtain ⟨root, hroot⟩ := computeTxRoot_ok (E := E) hall
  unfold assembleBlock
  simp only [hroot]
  exact ⟨_, rfl, rfl, rfl⟩

/-! ### What was admitted is pending -/

theorem serializeTransaction_of_id (hc : E.CollisionFree) {a b : Tx} {id : String}
    (ha : buildTransactionID E a = .ok id) (hb : buildTransactionID E b = .ok id) :
    serializeTransaction E a = serializeTransaction E b := by
  obtain ⟨x, hx, hxid⟩ := except_map_ok_iff.mp ha
  obtain ⟨y, hy, hyid⟩ := except_map_ok_iff.mp hb
  rw [hx, hy, hc (hexEncode_injective (hxid.trans hyid.symm))]

theorem authentic_nonempty {tx : Tx} (h : Authentic E tx) : tx.pk ≠ "" ∧ tx.signature ≠ "" := by
  obtain ⟨pk, pre, hpk, -, -, hver⟩ := h
  obtain ⟨sb, hsig, hlen, hverify⟩ := verifySignature_ok_iff.mp hver
  have hempty : decodeHex "" = some [] := rfl
  constructor
  · intro h0
    rw [h0, hempty] at hpk
    rw [← Option.some.inj hpk] at hlen
    cases hlen
  · intro h0
    rw [h0, hempty] at hsig
    have hsb := hverify.1
    rw [← Option.some.inj hsig] at hsb
    cases hsb

/-- **An admitted transaction** is valid in the state it was admitted in. -/
theorem pending_of_admission (hc : E.CollisionFree) {st : NamecoinState} {msg tx : Tx} {txID : String}
    (h : admission E st msg = .ok (tx, txID)) :
    Pending E st txID tx ∧ buildTransactionID E tx = .ok txID := by
  obtain ⟨ins, outs, hplan, htx, -, -, hid, hau, hb, hb', hval, hins⟩ := admit_ok_iff.mp h
  refine ⟨?_, hb'⟩
  have hid' : tx.txID = txID := by rw [htx]; exact hid.symm
  by_cases hR : tx.type = "Reward"
  · refine .reward hR (.inr hid') ?_
    rw [htx]
    rcases (spendPlan_ok hplan).change with hnil | ⟨l, -, hone⟩
    · rw [hnil]; exact Nat.zero_le _
    · rw [hone]; exact le_refl 1
  · have hser := serializeTransaction_of_id hc hb hb'
    have hautx : Authentic E tx := by
      obtain ⟨pk, pre, hpk, hfrom, hpre, hver⟩ := hau
      refine ⟨pk, pre, by rw [htx]; exact hpk, by rw [htx]; exact hfrom,
        hser.symm.trans hpre, by rw [htx]; exact hver⟩
    obtain ⟨hpk, hsig⟩ := authentic_nonempty hautx
    refine .user hR (by rw [htx]; exact hplan)
      (verifyTxAuth_ok_iff.mpr ⟨hpk, hsig, ?_, hid', hautx⟩) ?_ hins
    · rw [hid']
      obtain ⟨p, -, rfl⟩ := buildTransactionID_ok_iff.mp hb'
      exact fun h0 => E.sha256_ne_nil _ (hexEncode_eq_empty.mp h0)
    · obtain ⟨cmd, hcmd, hv⟩ := validateCommand_ok_iff.mp hval
      refine validateCommand_ok_iff.mpr ⟨cmd, by rw [htx]; exact hcmd, ?_⟩
      rw [htx]
      cases cmd <;> exact hv

/-! ### The block as a whole -/

theorem freshTxs_length : ∀ (txs : List Tx) (seen : Finset String), (freshTxs E seen txs).length ≤
      txs.length
  | [], seen => by simp [freshTxs]
  | tx :: txs, seen => by
    rw [freshTxs, List.length_cons]
    cases buildTransactionID E tx with
    | error _ => exact (freshTxs_length txs seen).trans (Nat.le_succ _)
    | ok txID =>
      dsimp only
      split_ifs
      · exact (freshTxs_length txs seen).trans (Nat.le_succ _)
      · exact Nat.succ_le_succ (freshTxs_length txs _)

theorem pending_blockReward (st : NamecoinState) (txID : String) (height : UInt64) (miner : String) :
    Pending E st txID (blockReward height miner) := .reward rfl (.inl rfl) (le_refl 1)

/-- No two of the transactions of the block that are not applied yet get in each other's way, and all
of them are still in time one height later. -/
def Compatible (E : Env) (st : NamecoinState) (txs : List Tx) : Prop :=
  (freshTxs E st.txMap txs).Pairwise (fun a b => Independent a.2 b.2) ∧
    ∀ e ∈ freshTxs E st.txMap txs, Timely st e.2

/-- **A block of pending transactions** applies exactly if they are compatible. -/
theorem assembled_iff {c : NamecoinChain} {log : List Event} (hrun : ChainRun E c log) {hdr : BlockHeader}
    (hh : hdr.height = c.state.currentHeight + 1) (miner : String) {pending : List Tx}
    (hheight : c.state.currentHeight.toNat + 1 + maxDomainTTLBlocks.toNat < 2 ^ 64)
    (hcoins : created log + pending.length + 1 < 2 ^ 64)
    (hpend : ∀ tx ∈ pending, ∃ txID, Pending E c.state txID tx ∧ buildTransactionID E tx = .ok txID) :
    ∃ blk, assembleBlock E hdr pending miner = .ok blk ∧
      ((∃ st', applyBlockStrict E blk c.state = .ok () st') ↔
        Compatible E c.state (blockReward hdr.height miner :: pending)) := by
  have hpay : ∀ tx ∈ pending, tx.payload ≠ .invalid := fun tx htx => by
    obtain ⟨id, -, hb⟩ := hpend tx htx
    obtain ⟨p, hp, -⟩ := buildTransactionID_ok_iff.mp hb
    exact ne_invalid_of_payloadValue hp
  obtain ⟨blk, hblk, hbh, hbt⟩ := assembleBlock_ok (E := E) hdr miner hpay
  refine ⟨blk, hblk, ?_⟩
  -- the reward is one of the pending transactions
  have hall : ∀ tx ∈ blockReward hdr.height miner :: pending, ∃ txID, Pending E c.state txID tx ∧
      buildTransactionID E tx = .ok txID := List.forall_mem_cons.mpr ⟨by
    have hpay : (blockReward hdr.height miner).payload ≠ .invalid := by simp [blockReward]
    obtain ⟨id, hid⟩ := buildTransactionID_ok (E := E) hpay
    exact ⟨id, pending_blockReward _ _ _ _, hid⟩, hpend⟩
  have hids : ∀ tx ∈ blk.transactions, ∃ txID, buildTransactionID E tx = .ok txID := fun tx htx => by
    obtain ⟨id, -, hid⟩ := hall tx (hbt ▸ htx)
    exact ⟨id, hid⟩
  have hw := hrun.reached.wellFormed
  have ht := tracked_of_run hrun
  have hseq : c.state.nextUTXOSeq.toNat = created log := by
    rw [ht.seq]
    exact Nat.mod_eq_of_lt (by omega)
  have happlied := (pruned_rest (c.state.currentHeight + 1) c.state).2
  have hstart : Running E c.state [] (atHeight (c.state.currentHeight + 1) c.state) :=
    ⟨namesRun_start hw.1 hw.2, coinsRun_start (ht.placed (by omega)).below _,
      hw.1.atHeight _, by rw [happlied], by simp⟩
  have hlen := freshTxs_length (E := E) (blockReward hdr.height miner :: pending) c.state.txMap
  rw [List.length_cons] at hlen
  have hiff := run_iff hw.1 hheight (freshTxs E c.state.txMap (blockReward hdr.height miner :: pending))
    [] _ hstart (fun e he => ?_) (freshTxs_nodup _ _) (by rw [hseq, List.length_nil]; omega)
  · simp only [List.not_mem_nil, false_implies, implies_true, true_and] at hiff
    rw [Compatible, ← hiff]
    simp only [applyBlockStrict_ok_iff, hbh.trans hh]
    constructor
    · rintro ⟨st', hs⟩
      have hf := StrictRun.freshRun hs
      rw [happlied, hbt] at hf
      exact ⟨st', hf⟩
    · rintro ⟨st', hs⟩
      exact ⟨st', StrictRun.of_freshRun hids (by rw [happlied, hbt]; exact hs)⟩
  · obtain ⟨hmem, hb, hnew⟩ := freshTxs_build he
    obtain ⟨id, hp, hid⟩ := hall e.2 hmem
    rw [hb] at hid
    exact ⟨Except.ok.inj hid ▸ hp, hb, by rw [happlied]; exact hnew⟩

/-! ### What the buffer hands out -/

/-- Messages handled one after the other, all of them admitted. -/
def admitAll (E : Env) (st : NamecoinState) (msgs : List Tx) (b : TxBuffer) : Except Err TxBuffer :=
  msgs.foldlM (handleNamecoinTransactionMessage E st) b

/-- The buffer holds what was admitted, no more than `n` of it. -/
structure Filled (E : Env) (st : NamecoinState) (n : ℕ) (b : TxBuffer) : Prop where
  admitted : ∀ id tx, b.txs.lookup id = some tx → ∃ msg, admission E st msg = .ok (tx, id)
  length : b.order.length ≤ n

theorem Filled.handle {st : NamecoinState} {n : ℕ} {b b' : TxBuffer} {msg : Tx} (h : Filled E st n b)
    (hm : handleNamecoinTransactionMessage E st b msg = .ok b') : Filled E st (n + 1) b' := by
  unfold handleNamecoinTransactionMessage at hm
  obtain ⟨⟨tx, txID⟩, had, he⟩ := except_bind_ok_iff.mp hm
  cases he
  unfold TxBuffer.add
  split_ifs with hin
  · exact ⟨h.admitted, h.length.trans (Nat.le_succ n)⟩
  · refine ⟨fun id t hl => ?_, by simpa using h.length⟩
    rw [lookup_insert_ite] at hl
    split_ifs at hl with hid
    · cases hl
      exact ⟨msg, hid ▸ had⟩
    · exact h.admitted id t hl

theorem Filled.admitAll {st : NamecoinState} :
    ∀ {msgs : List Tx} {n : ℕ} {b b' : TxBuffer}, Filled E st n b →
    admitAll E st msgs b = .ok b' → Filled E st (n + msgs.length) b'
  | [], n, b, b', h, ha => by cases ha; exact h
  | msg :: msgs, n, b, b', h, ha => by
    unfold Template.admitAll at ha
    rw [List.foldlM_cons] at ha
    obtain ⟨b₁, h₁, h₂⟩ := except_bind_ok_iff.mp ha
    have := (h.handle h₁).admitAll h₂
    rwa [Nat.add_assoc, Nat.add_comm 1, ← List.length_cons] at this

theorem filled_newTxBuffer (E : Env) (st : NamecoinState) : Filled E st 0 newTxBuffer :=
  ⟨fun id tx h => (by simp [newTxBuffer] at h), le_refl 0⟩

theorem Filled.drained {st : NamecoinState} {n : ℕ} {b : TxBuffer} (h : Filled E st n b) :
    b.drain.1.pending.length ≤ n ∧ ∀ tx ∈ b.drain.1.pending, ∃ msg id, admission E st msg =
      .ok (tx, id) := by
  unfold TxBuffer.drain TxBuffer.list
  dsimp only
  refine ⟨?_, fun tx htx => ?_⟩
  · rw [List.length_map]
    exact (List.length_filterMap_le _ _).trans h.length
  · obtain ⟨⟨id, t⟩, he, rfl⟩ := List.mem_map.mp htx
    obtain ⟨id', -, hmap⟩ := List.mem_filterMap.mp he
    obtain ⟨t', hl, heq⟩ := Option.map_eq_some_iff.mp hmap
    cases heq
    obtain ⟨msg, hmsg⟩ := h.admitted id t hl
    exact ⟨msg, id, hmsg⟩

/-- **The template of the miner.** On a chain of any length (short of the largest machine word), the
block built from any admitted messages is accepted exactly if the transactions are compatible. -/
theorem template_iff (hc : E.CollisionFree) {c : NamecoinChain} {log : List Event}
    (hrun : ChainRun E c log) {msgs : List Tx} {b : TxBuffer}
    (hb : admitAll E c.state msgs newTxBuffer = .ok b) {hdr : BlockHeader}
    (hh : hdr.height = c.state.currentHeight + 1) (miner : String)
    (hheight : c.state.currentHeight.toNat + 1 + maxDomainTTLBlocks.toNat < 2 ^ 64)
    (hcoins : created log + msgs.length + 1 < 2 ^ 64) :
    ∃ blk, assembleBlock E hdr b.drain.1.pending miner = .ok blk ∧
      ((∃ st', applyBlockStrict E blk c.state = .ok () st') ↔
        Compatible E c.state (blockReward hdr.height miner :: b.drain.1.pending)) := by
  obtain ⟨hlen, hadm⟩ := ((filled_newTxBuffer E c.state).admitAll hb).drained
  refine assembled_iff hrun hh miner hheight (by omega) fun tx htx => ?_
  obtain ⟨msg, id, h⟩ := hadm tx htx
  exact ⟨id, pending_of_admission hc h⟩

/-! ### Two messages of one sender -/

/-- A `NameNew` paid with the genesis reward of its sender. -/
def commitTo (k : Signer E) (commitment : String) : Tx :=
  walletTx k (.nameNew ⟨commitment, 0⟩) 1 [⟨rewardID E k.address 1, 0⟩] []

theorem funded_run (k : Signer E) :
    ∃ c, ChainRun E c [⟨0, rewardID E k.address 1, rewardTx k.address 1⟩] ∧
    c.state = funded k := by
  let target : ℤ := workOf E (blockAt E 0 none [rewardTx k.address 1] 0)
  have hreach : ReachedChain E (emptyChain target 0) := .empty 0 _
  have hpay : ∀ tx ∈ [rewardTx k.address 1], tx.payload ≠ .invalid := by simp [rewardTx]
  have hf : FreshStep E (rewardID E k.address 1) (rewardTx k.address 1) newState (funded k) :=
    freshStep_reward rfl (.inl rfl) (by simp [rewardTx]) Finmap.notMem_empty
  have hrun : StrictRun E [rewardTx k.address 1] (atHeight 0 newState) (funded k) := by
    rw [atHeight_of_no_expires rfl]
    exact .fresh (buildTransactionID_rewardTx _ _) (Finset.notMem_empty _) hf (.nil _)
  obtain ⟨S', ha⟩ := extend_reached hreach (static_emptyChain target 0) hpay hrun (le_refl target) []
  have hstep := ChainRun.step (.empty 0 (staticConfig target)) ha
  have hfresh : freshOf E (emptyChain target 0)
    (blockOn E (emptyChain target 0) [rewardTx k.address 1] 0) =
    [(rewardID E k.address 1, rewardTx k.address 1)] := by
    show freshTxs E ∅ [rewardTx k.address 1] = _
    rw [freshTxs, buildTransactionID_rewardTx]
    dsimp only
    rw [if_neg (Finset.notMem_empty _)]
    rfl
  rw [show freshOf E (configurePow (staticConfig target) (newNamecoinChain 0)) _ = _ from hfresh] at hstep
  exact ⟨_, hstep, rfl⟩

theorem admit_commitTo (k : Signer E) {commitment : String} (h : commitment ≠ "") :
    admission E (funded k) (commitTo k commitment) =
      .ok (commitTo k commitment, (commitTo k commitment).txID) :=
  admit_walletTx (spendPlan_funded k) (failIf_ok_iff.mpr h) rfl

theorem commitTo_txID_ne (hc : E.CollisionFree) (hj : E.CanonicalJson) (k : Signer E)
    {a b : String} (h : a ≠ b) :
    (commitTo k a).txID ≠ (commitTo k b).txID := fun he => by
  have ha : buildTransactionID E (commitTo k a) = .ok (commitTo k a).txID := rfl
  have hb : buildTransactionID E (commitTo k b) = .ok (commitTo k a).txID := he ▸ rfl
  have hpay := Except.ok.inj (buildTransactionID_inj hc hj ha hb).payload
  have hmembers : (valueMembers [("commitment", .str a), ("ttl", numText 0)] []) =
      valueMembers [("commitment", .str b), ("ttl", numText 0)] [] := JsonValue.obj.inj hpay
  refine h ?_
  have hlt : ¬ "ttl" < "commitment" := by decide
  have hkey : "ttl" ≠ "commitment" := by decide
  simp only [valueMembers, insertMember, JsonText.value, if_neg hlt, if_neg hkey] at hmembers
  simpa using hmembers

theorem admitAll_commitTo (hc : E.CollisionFree) (hj : E.CanonicalJson) (k : Signer E) :
    ∃ b, admitAll E (funded k) [commitTo k "a", commitTo k "b"] newTxBuffer = .ok b ∧
      b.drain.1.pending = [commitTo k "a", commitTo k "b"] := by
  have hne := commitTo_txID_ne hc hj k (show "b" ≠ "a" by decide)
  unfold admitAll handleNamecoinTransactionMessage
  simp only [List.foldlM_cons, List.foldlM_nil, admit_commitTo k (show "a" ≠ "" by decide),
    admit_commitTo k (show "b" ≠ "" by decide)]
  refine ⟨_, rfl, ?_⟩
  rw [newTxBuffer_add_add hne]
  simp [TxBuffer.drain, TxBuffer.list, lookup_insert_ite, hne.symm]

theorem commitTo_clash (hc : E.CollisionFree) (hj : E.CanonicalJson) (k : Signer E) {seen : Finset String}
    (hseen : ∀ t ∈ seen, ∃ tx, tx.type = "Reward" ∧ buildTransactionID E tx = .ok t) :
    ¬ (freshTxs E seen [commitTo k "a", commitTo k "b"]).Pairwise (fun a b => Independent a.2 b.2) := by
  have hnew : ∀ m, (commitTo k m).txID ∉ seen := fun m hm => by
    obtain ⟨tx, hR, hb⟩ := hseen _ hm
    exact txID_ne_of_type hc hj (rfl : buildTransactionID E (commitTo k m) = .ok _) hb
      (by rw [hR]; exact (by decide : "NameNew" ≠ "Reward")) rfl
  have hb : (commitTo k "b").txID ∉ insert (commitTo k "a").txID seen := fun hm =>
    (Finset.mem_insert.mp hm).elim (commitTo_txID_ne hc hj k (by decide)) (hnew "b")
  rw [freshTxs_cons_new rfl (hnew "a"), freshTxs_cons_new rfl hb, List.pairwise_cons]
  rintro ⟨hind, -⟩
  have hsp : ∀ m, Spends (commitTo k m) := fun m =>
    ⟨(by decide : "NameNew" ≠ "Reward"), (by decide : (1 : UInt64) ≠ 0)⟩
  exact (hind _ List.mem_cons_self).senders (hsp "a") (hsp "b") rfl

theorem not_compatible (hc : E.CollisionFree) (hj : E.CanonicalJson) (k : Signer E) (height : UInt64) :
    ¬ Compatible E (funded k) (blockReward height "miner" :: [commitTo k "a", commitTo k "b"]) := by
  rintro ⟨hpair, -⟩
  have hpay : (blockReward height "miner").payload ≠ .invalid := by simp [blockReward]
  obtain ⟨rid, hrid⟩ := buildTransactionID_ok (E := E) hpay
  have hseen : ∀ t ∈ (funded k).txMap, ∃ tx, tx.type = "Reward" ∧ buildTransactionID E tx = .ok t :=
      fun t ht => by
    rcases Finset.mem_insert.mp ht with rfl | h
    · exact ⟨_, rfl, buildTransactionID_rewardTx _ _⟩
    · exact absurd h (Finset.notMem_empty t)
  by_cases hr : rid ∈ (funded k).txMap
  · rw [freshTxs, hrid] at hpair
    dsimp only at hpair
    rw [if_pos hr] at hpair
    exact commitTo_clash hc hj k hseen hpair
  · rw [freshTxs_cons_new hrid hr] at hpair
    refine commitTo_clash hc hj k (fun t ht => ?_) (List.pairwise_cons.mp hpair).2
    rcases Finset.mem_insert.mp ht with rfl | h
    · exact ⟨_, rfl, hrid⟩
    · exact hseen t h

/-- **A block of two admitted messages is refused**: their sender has one coin, and
each of them spends it. -/
theorem double_spend_refused : ¬ ∀ (E : Env) (c : NamecoinChain) (msgs : List Tx) (b : TxBuffer)
    (hdr : BlockHeader) (miner : String) (blk : Block), E.CollisionFree → ReachedChain E c →
    (msgs.map Tx.txID).Nodup → admitAll E c.state msgs newTxBuffer = .ok b →
    hdr.height = c.state.currentHeight + 1 → assembleBlock E hdr b.drain.1.pending miner = .ok blk →
    ∃ st', applyBlockStrict E blk c.state = .ok () st' := by
  intro hall
  let k := plainSigner 7
  have hj := plainEnv_canonicalJson
  have hc := plainEnv_collisionFree
  obtain ⟨c, hrun, hst⟩ := funded_run k
  obtain ⟨b, hb, hpend⟩ := admitAll_commitTo hc hj k
  rw [← hst] at hb
  have hids : ([commitTo k "a", commitTo k "b"].map Tx.txID).Nodup := by
    simpa using commitTo_txID_ne hc hj k (show "a" ≠ "b" by decide)
  let hdr : BlockHeader := ⟨1, none, none, 0, 0, "", none⟩
  have hh : hdr.height = c.state.currentHeight + 1 := by rw [hst]; rfl
  have hheight : c.state.currentHeight.toNat + 1 + maxDomainTTLBlocks.toNat < 2 ^ 64 := by
    rw [hst]
    exact (by decide : 0 + 1 + maxDomainTTLBlocks.toNat < 2 ^ 64)
  have hcoins : (1 + 0) + b.drain.1.pending.length + 1 < 2 ^ 64 := by rw [hpend]; decide
  obtain ⟨blk, hblk, hiff⟩ := assembled_iff hrun hh "miner" hheight hcoins fun tx htx => by
    obtain ⟨msg, id, hadm⟩ := ((filled_newTxBuffer _ _).admitAll hb).drained.2 tx htx
    exact ⟨id, pending_of_admission hc hadm⟩
  have hok := hall _ c _ b hdr "miner" blk hc hrun.reached hids hb hh hblk
  rw [hiff, hpend, hst] at hok
  exact not_compatible hc hj k 1 hok

theorem compatible_commitTo (k : Signer E) (m : String) (height : UInt64) :
    Compatible E (funded k) [blockReward height "miner", commitTo k m] := by
  have hmem : ∀ e ∈ freshTxs E (funded k).txMap [blockReward height "miner", commitTo k m],
      e.2 = blockReward height "miner" ∨ e.2 = commitTo k m := fun e he => by
    simpa using (freshTxs_build he).1
  have hcmd : resolveCommand (commitTo k m).type (commitTo k m).payload = .ok (.nameNew ⟨m, 0⟩) :=
    resolveCommand_payload (.nameNew ⟨m, 0⟩)
  have hnone : ∀ e ∈ freshTxs E (funded k).txMap [blockReward height "miner", commitTo k m],
      (∀ n, firstUpdateOf e.2 ≠ some n) ∧ ∀ n, updateOf e.2 ≠ some n := fun e he => by
    simp only [ne_eq, firstUpdateOf_iff, updateOf_iff]
    rcases hmem e he with h | h
    · rw [h]
      exact ⟨fun n hn => (by cases hn), fun n hn => (by cases hn)⟩
    · rw [h, hcmd]
      exact ⟨fun n hn => (by cases hn), fun n hn => (by cases hn)⟩
  refine ⟨?_, fun e he => ⟨fun n key r hn => absurd hn ((hnone e he).1 n),
    fun n r hn => absurd hn ((hnone e he).2 n)⟩⟩
  have hids := List.pairwise_map.mp (freshTxs_nodup (E := E) [blockReward height "miner", commitTo k m]
    (funded k).txMap)
  refine hids.imp_of_mem fun {a b} ha hb hne =>
    ⟨fun hsa hsb => ?_, fun n _ hn => absurd hn ((hnone a ha).1 n),
      fun n _ hn => absurd hn ((hnone a ha).1 n)⟩
  -- both spend, so both are the `NameNew`, of one ID
  have hspend : ∀ {e : String × Tx}, e ∈ freshTxs E (funded k).txMap
    [blockReward height "miner", commitTo k m] → Spends e.2 → e.1 = (commitTo k m).txID :=
    fun {e} he hs => by
    rcases hmem e he with h | h
    · exact absurd (by rw [h]; rfl) hs.1
    · have hid := (freshTxs_build he).2.1
      rw [h] at hid
      exact (Except.ok.inj hid).symm
  exact absurd ((hspend ha hsa).trans (hspend hb hsb).symm) hne

theorem admitAll_one (k : Signer E) : ∃ b, admitAll E (funded k) [commitTo k "a"] newTxBuffer = .ok b ∧
    b.drain.1.pending = [commitTo k "a"] := by
  unfold admitAll handleNamecoinTransactionMessage
  simp only [List.foldlM_cons, List.foldlM_nil, admit_commitTo k (show "a" ≠ "" by decide)]
  refine ⟨_, rfl, ?_⟩
  rw [newTxBuffer_add]
  simp [TxBuffer.drain, TxBuffer.list]

/-- One admitted message, whose block is accepted. -/
theorem template_commit : ∃ (E : Env) (c : NamecoinChain) (msg : Tx) (b : TxBuffer)
      (hdr : BlockHeader) (blk : Block),
    ReachedChain E c ∧ admitAll E c.state [msg] newTxBuffer = .ok b ∧
    hdr.height = c.state.currentHeight + 1 ∧
      assembleBlock E hdr b.drain.1.pending "miner" = .ok blk ∧
      ∃ st', applyBlockStrict E blk c.state = .ok () st' := by
  let k := plainSigner 7
  have hc := plainEnv_collisionFree
  obtain ⟨c, hrun, hst⟩ := funded_run k
  obtain ⟨b, hb, hpend⟩ := admitAll_one k
  rw [← hst] at hb
  let hdr : BlockHeader := ⟨1, none, none, 0, 0, "", none⟩
  have hh : hdr.height = c.state.currentHeight + 1 := by rw [hst]; rfl
  have hheight : c.state.currentHeight.toNat + 1 + maxDomainTTLBlocks.toNat < 2 ^ 64 := by
    rw [hst]
    exact (by decide : 0 + 1 + maxDomainTTLBlocks.toNat < 2 ^ 64)
  obtain ⟨blk, hblk, hiff⟩ := template_iff hc hrun hb hh "miner" hheight
    (by decide : 1 + 0 + 1 + 1 < 2 ^ 64)
  refine ⟨_, c, _, b, hdr, blk, hrun.reached, hb, hh, hblk, hiff.mpr ?_⟩
  rw [hpend, hst]
  exact compatible_commitTo k "a" 1

end Namecoin.Node.Template
